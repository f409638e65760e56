import Mathlib.Data.List.DropRight
import CseMachine.Lines
import CseMachine.Proofs.Boundaries

/-!
# Lines and columns

A line starts at offset zero and right behind each newline, so there are as many lines in
front of an offset as newlines. The characters behind the last of these newlines give the
column, so the offset can be had back from line and column. The lines themselves are the
text cut at its newlines.
-/
namespace CseMachine

open Text (bytes)

namespace Text

/-- Nothing else is on the line. -/
def endsLine : List Char → Bool
  | [] => true
  | c :: _ => c = '\n'

/-- The text without the carriage returns that end a line. -/
def withoutReturns : List Char → List Char
  | [] => []
  | c :: rest => if c = '\r' ∧ endsLine rest then withoutReturns rest else c :: withoutReturns rest

end Text

namespace Lines

variable {cs front back : List Char} {offset n : Nat} {t : Lines}

/-! Starts of lines -/

theorem startsAfter_append (offset : Nat) (front back : List Char) :
    startsAfter offset (front ++ back) = startsAfter offset front ++ startsAfter (offset + bytes front) back := by
  induction front generalizing offset with
  | nil => rfl
  | cons c front ih =>
    have hbytes : offset + bytes (c :: front) = offset + c.utf8Size + bytes front := by
      rw [Text.bytes_cons]
      omega
    simp only [List.cons_append, startsAfter, ih, hbytes]
    by_cases hc : c = '\n'
    · rw [if_pos hc, if_pos hc, List.cons_append]
    · rw [if_neg hc, if_neg hc]

theorem startsAfter_singleton (offset : Nat) (c : Char) :
    startsAfter offset [c] = if c = '\n' then [offset + c.utf8Size] else [] := rfl

theorem length_startsAfter (offset : Nat) (cs : List Char) : (startsAfter offset cs).length = cs.count '\n' := by
  induction cs generalizing offset with
  | nil => rfl
  | cons c cs ih =>
    simp only [startsAfter]
    by_cases hc : c = '\n'
    · rw [if_pos hc, hc, List.length_cons, ih, List.count_cons_self]
    · rw [if_neg hc, ih, List.count_cons_of_ne hc]

theorem mem_startsAfter (h : n ∈ startsAfter offset cs) : offset < n ∧ n ≤ offset + bytes cs := by
  induction cs generalizing offset with
  | nil => cases h
  | cons c cs ih =>
    have hpos := c.utf8Size_pos
    simp only [startsAfter] at h
    rw [Text.bytes_cons]
    by_cases hc : c = '\n'
    · rw [if_pos hc] at h
      rcases List.mem_cons.mp h with rfl | h
      · omega
      · have := ih h
        omega
    · rw [if_neg hc] at h
      have := ih h
      omega

/-- The starts ascend. -/
theorem pairwise_startsAfter (offset : Nat) (cs : List Char) : (offset :: startsAfter offset cs).Pairwise (· < ·) := by
  induction cs generalizing offset with
  | nil => exact List.pairwise_singleton _ _
  | cons c cs ih =>
    refine List.pairwise_cons.mpr ⟨fun n hn => (mem_startsAfter hn).1, ?_⟩
    have hrest := ih (offset + c.utf8Size)
    simp only [startsAfter]
    by_cases hc : c = '\n'
    · rw [if_pos hc]
      exact hrest
    · rw [if_neg hc]
      exact (List.pairwise_cons.mp hrest).2

/-! Lines of offsets -/

/-- If the starts up to a place are not behind the offset and all others are, the offset is on the line before the place. -/
theorem lineOf_of_append {before after : List Nat} (hs : t.starts = before ++ after) (hb : ∀ s ∈ before, s ≤ offset)
    (ha : ∀ s ∈ after, offset < s) : t.lineOf offset = max 1 before.length := by
  have hbefore : before.countP (· ≤ offset) = before.length := List.countP_eq_length.mpr fun s hm => by simpa using hb s hm
  have hafter : after.countP (· ≤ offset) = 0 := List.countP_eq_zero.mpr fun s hm => by simpa using ha s hm
  rw [lineOf, hs, List.countP_append, hbefore, hafter, Nat.add_zero]

/-- Since the starts ascend, a search for the offset tells its line: it finds the start of the line, or the place
behind it where the offset would be put in. -/
theorem lineOf_search (source : String) (offset i : Nat) :
    ((ofSource source).starts[i]? = some offset → (ofSource source).lineOf offset = i + 1) ∧
      ((∀ s ∈ (ofSource source).starts.take i, s < offset) → (∀ s ∈ (ofSource source).starts.drop i, offset < s) →
        i ≤ (ofSource source).starts.length → (ofSource source).lineOf offset = i - 1 + 1) := by
  have hs : (ofSource source).starts.Pairwise (· < ·) := pairwise_startsAfter 0 source.toList
  generalize ofSource source = t at hs ⊢
  constructor
  · intro hi
    obtain ⟨hlt, hget⟩ := List.getElem?_eq_some_iff.mp hi
    have hsplit : t.starts = (t.starts.take i ++ [offset]) ++ t.starts.drop (i + 1) := by
      rw [← hget, List.take_append_getElem, List.take_append_drop]
    have hparts := List.pairwise_append.mp (hsplit ▸ hs)
    have hfront := (List.pairwise_append.mp hparts.1).2.2
    rw [lineOf_of_append hsplit]
    · simp only [List.length_append, List.length_take, List.length_singleton]
      omega
    · intro s hm
      rcases List.mem_append.mp hm with hm | hm
      · exact Nat.le_of_lt (hfront s hm offset (.head _))
      · exact Nat.le_of_eq (List.mem_singleton.mp hm)
    · exact fun s hm => hparts.2.2 offset (List.mem_append_right _ (.head _)) s hm
  · intro hb ha hi
    rw [lineOf_of_append (List.take_append_drop i t.starts).symm (fun s hm => Nat.le_of_lt (hb s hm)) ha]
    simp only [List.length_take]
    omega

variable {source : String} (h : source.toList = front ++ back)
include h

theorem starts_eq : (ofSource source).starts = (0 :: startsAfter 0 front) ++ startsAfter (bytes front) back := by
  rw [ofSource, h, startsAfter_append, Nat.zero_add, List.cons_append]

/-- The line of an offset is told by the newlines in front of it. -/
theorem lineOf_bytes : (ofSource source).lineOf (bytes front) = 1 + front.count '\n' := by
  rw [lineOf_of_append (starts_eq h)]
  · rw [List.length_cons, length_startsAfter]
    omega
  · intro s hm
    rcases List.mem_cons.mp hm with rfl | hm
    · exact Nat.zero_le _
    · exact Nat.zero_add (bytes front) ▸ (mem_startsAfter hm).2
  · exact fun s hm => (mem_startsAfter hm).1

omit h in
/-- The last start that is not behind the offset is right behind the last newline. -/
theorem getElem?_starts (front : List Char) :
    (0 :: startsAfter 0 front)[front.count '\n']? = some (bytes (front.rdropWhile (· ≠ '\n'))) := by
  induction front using List.reverseRecOn with
  | nil => rfl
  | append_singleton front c ih =>
    rw [startsAfter_append, startsAfter_singleton, Nat.zero_add, List.count_append, ← List.cons_append]
    by_cases hc : c = '\n'
    · have hlen : (0 :: startsAfter 0 front).length = front.count '\n' + 1 := by rw [List.length_cons, length_startsAfter]
      rw [if_pos hc, hc, List.count_singleton_self, List.rdropWhile_concat_neg _ _ _ (by simp),
        List.getElem?_append_right (Nat.le_of_eq hlen), hlen, Nat.sub_self, Text.bytes_append]
      rfl
    · rw [if_neg hc, List.count_singleton, List.rdropWhile_concat_pos _ _ _ (by simpa using hc), List.append_nil]
      simpa [hc] using ih

theorem startOf?_line : (ofSource source).startOf? (1 + front.count '\n') = some (bytes (front.rdropWhile (· ≠ '\n'))) := by
  have hlt : front.count '\n' < (0 :: startsAfter 0 front).length := by
    rw [List.length_cons, length_startsAfter]
    omega
  rw [startOf?, if_neg (by omega), Nat.add_sub_cancel_left, starts_eq h, List.getElem?_append_left hlt, getElem?_starts]

/-- The column counts the characters behind the last newline. -/
theorem locate_bytes : (ofSource source).locate (bytes front) =
    (1 + front.count '\n', 1 + (front.rtakeWhile (· ≠ '\n')).length) := by
  have hparts : front.rdropWhile (· ≠ '\n') ++ front.rtakeWhile (· ≠ '\n') = front := List.rdropWhile_append_rtakeWhile
  have hstop : min (bytes front) (bytes (ofSource source).chars) = bytes front := by
    rw [show (ofSource source).chars = front ++ back from h, Text.bytes_append]
    omega
  have hslice : Text.slice? (ofSource source).chars (bytes (front.rdropWhile (· ≠ '\n'))) (bytes front) =
      some (front.rtakeWhile (· ≠ '\n')) := by
    have hcut := Text.slice?_append (front.rdropWhile (· ≠ '\n')) (front.rtakeWhile (· ≠ '\n')) back
    rw [hparts, ← h] at hcut
    exact hcut
  simp only [locate, lineOf_bytes h, startOf?_line h, Option.getD_some, hstop, hslice]
  rw [Nat.add_comm 1 (front.rtakeWhile _).length]

/-- From the start of its line the offset is as far as the characters in front of its column. -/
theorem bytes_of_locate : ∃ start rest, (ofSource source).startOf? ((ofSource source).locate (bytes front)).1 = some start ∧
    Text.dropBytes? start source.toList = some rest ∧
    start + bytes (rest.take (((ofSource source).locate (bytes front)).2 - 1)) = bytes front := by
  have hparts : front.rdropWhile (· ≠ '\n') ++ front.rtakeWhile (· ≠ '\n') = front := List.rdropWhile_append_rtakeWhile
  refine ⟨bytes (front.rdropWhile (· ≠ '\n')), front.rtakeWhile (· ≠ '\n') ++ back, ?_, ?_, ?_⟩
  · rw [locate_bytes h, startOf?_line h]
  · rw [h, ← Text.dropBytes?_append (front.rdropWhile (· ≠ '\n')), ← List.append_assoc, hparts]
  · rw [locate_bytes h, Nat.add_sub_cancel_left, List.take_left, ← Text.bytes_append, hparts]

omit h

/-- Who goes on gets to a later line, or further on the same one. -/
theorem lex_of_append {middle : List Char} (hne : middle ≠ []) :
    Prod.Lex (· < ·) (· < ·) (1 + front.count '\n', 1 + (front.rtakeWhile (· ≠ '\n')).length)
      (1 + (front ++ middle).count '\n', 1 + ((front ++ middle).rtakeWhile (· ≠ '\n')).length) := by
  rw [Prod.lex_def, List.count_append]
  by_cases hm : '\n' ∈ middle
  · have := List.count_pos_iff.mpr hm
    exact .inl (by omega)
  · have hplain : ∀ c ∈ middle, c ≠ '\n' := fun c hc he => hm (he ▸ hc)
    have htake : ((front ++ middle).rtakeWhile (· ≠ '\n')).length = (front.rtakeWhile (· ≠ '\n')).length + middle.length := by
      rw [List.rtakeWhile, List.reverse_append, List.takeWhile_append_of_pos (by simpa using hplain), List.length_reverse,
        List.length_append, List.length_reverse, Nat.add_comm, List.rtakeWhile, List.length_reverse]
    have hpos := List.length_pos_iff.mpr hne
    rw [htake, List.count_eq_zero_of_not_mem hm]
    exact .inr ⟨by omega, by omega⟩

/-! Texts of lines -/

/-- The line that starts at an offset of the text, without its newline. -/
def textFrom (cs : List Char) (start : Nat) : List Char := ((Text.dropBytes? start cs).getD []).takeWhile (· ≠ '\n')

/-- The lines are the pieces between newlines. -/
theorem map_textFrom (front cs : List Char) :
    (bytes front :: startsAfter (bytes front) cs).map (textFrom (front ++ cs)) = cs.splitOn '\n' := by
  induction cs generalizing front with
  | nil =>
    have hend : textFrom (front ++ []) (bytes front) = [] := by
      rw [textFrom, Text.dropBytes?_append, Option.getD_some, List.takeWhile_nil]
    rw [startsAfter, List.map_singleton, hend, List.splitOn_nil]
  | cons c cs ih =>
    have hrest := ih (front ++ [c])
    rw [List.append_assoc, List.singleton_append, Text.bytes_append, Text.bytes_cons, Text.bytes_nil, Nat.add_zero] at hrest
    have hfirst : textFrom (front ++ c :: cs) (bytes front) = (c :: cs).takeWhile (· ≠ '\n') := by
      rw [textFrom, Text.dropBytes?_append, Option.getD_some]
    rw [List.map_cons, hfirst, List.splitOn_cons_eq_if_modifyHead]
    simp only [startsAfter]
    by_cases hc : c = '\n'
    · rw [if_pos hc, if_pos (by simpa using hc), hrest, List.takeWhile_cons_of_neg (by simpa using hc)]
    · rw [List.map_cons] at hrest
      have hhead : textFrom (front ++ c :: cs) (bytes front + c.utf8Size) = cs.takeWhile (· ≠ '\n') := by
        have hdrop := Text.dropBytes?_append (front ++ [c]) cs
        rw [Text.bytes_append, Text.bytes_cons, Text.bytes_nil, Nat.add_zero, List.append_assoc, List.singleton_append] at hdrop
        rw [textFrom, hdrop, Option.getD_some]
      rw [if_neg hc, if_neg (by simpa using hc), ← hrest, List.modifyHead_cons, hhead,
        List.takeWhile_cons_of_pos (by simpa using hc)]

theorem dropReturn_cons (c : Char) (cs : List Char) :
    dropReturn (c :: cs) = if c = '\r' ∧ cs = [] then [] else c :: dropReturn cs := by
  cases cs with
  | nil =>
    by_cases hc : c = '\r' <;> simp [dropReturn, hc]
  | cons d cs =>
    by_cases hd : (d :: cs).getLast? = some '\r' <;> simp_all [dropReturn]

/-- The first piece is what stands in front of the first newline. -/
theorem exists_splitOn_cons (cs : List Char) : ∃ pieces, cs.splitOn '\n' = cs.takeWhile (· ≠ '\n') :: pieces := by
  induction cs with
  | nil => exact ⟨[], rfl⟩
  | cons c cs ih =>
    obtain ⟨pieces, hpieces⟩ := ih
    rw [List.splitOn_cons_eq_if_modifyHead, hpieces]
    by_cases hc : c = '\n'
    · exact ⟨cs.takeWhile (· ≠ '\n') :: pieces, by simp [hc]⟩
    · exact ⟨pieces, by simp [hc]⟩

theorem endsLine_iff : Text.endsLine cs = true ↔ cs.takeWhile (· ≠ '\n') = [] := by
  cases cs with
  | nil => simp [Text.endsLine]
  | cons c cs => by_cases hc : c = '\n' <;> simp [Text.endsLine, hc]

/-- The lines without the carriage returns at their ends make up the text without them. -/
theorem intercalate_dropReturn (cs : List Char) :
    ['\n'].intercalate ((cs.splitOn '\n').map dropReturn) = Text.withoutReturns cs := by
  induction cs with
  | nil => rfl
  | cons c cs ih =>
    obtain ⟨pieces, hpieces⟩ := exists_splitOn_cons cs
    rw [List.splitOn_cons_eq_if_modifyHead, Text.withoutReturns, hpieces]
    rw [hpieces] at ih
    by_cases hc : c = '\n'
    · rw [if_pos (by simpa using hc), if_neg (by simp [hc]), ← ih, hc]
      rfl
    · rw [if_neg (by simpa using hc), List.modifyHead_cons, List.map_cons, dropReturn_cons]
      by_cases hr : c = '\r' ∧ cs.takeWhile (· ≠ '\n') = []
      · rw [if_pos hr, if_pos ⟨hr.1, endsLine_iff.mpr hr.2⟩, ← ih, hr.2]
        rfl
      · rw [if_neg hr, if_neg fun h => hr ⟨h.1, endsLine_iff.mp h.2⟩, ← ih]
        cases pieces <;> simp

theorem map_lineText (source : String) : (List.range' 1 (ofSource source).count).map (ofSource source).lineText =
    (source.toList.splitOn '\n').map dropReturn := by
  have hpieces : (ofSource source).starts.map (textFrom source.toList) = source.toList.splitOn '\n' :=
    map_textFrom [] source.toList
  rw [← hpieces, List.map_map]
  apply List.ext_getElem
  · simp [count]
  · intro i hi hi'
    have hlt : i < (ofSource source).starts.length := by simpa using hi'
    have hstart : (ofSource source).startOf? (1 + i) = some (ofSource source).starts[i] := by
      rw [startOf?, if_neg (by omega), Nat.add_sub_cancel_left, List.getElem?_eq_getElem hlt]
    simp only [List.getElem_map, List.getElem_range', Nat.one_mul, lineText, hstart]
    rfl

/-! All offsets -/

end Lines
end CseMachine

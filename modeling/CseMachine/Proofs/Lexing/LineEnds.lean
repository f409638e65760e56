import CseMachine.Proofs.Lexing.Kinds

/-!
# Pieces and the ends of lines

But for the rules for newlines and for joined lines, no rule takes the end of a line, and
none looks behind it. So a source is cut line by line: the pieces of a line are the same
whatever comes behind it, and the last of them ends the line or joins it to the next one.
-/
namespace CseMachine.Lexeme

variable {p : Char → Bool} {cs line rest : List Char}

/-- The rule takes of a line what it takes where nothing comes behind the line. -/
structure StaysInLine (rule : List Char → Nat) : Prop where
  ends : ∀ line rest, rule (line ++ '\n' :: rest) = rule line
  le : ∀ cs, rule cs ≤ cs.length

/-! Runs and what is built from them -/

theorem staysInLine_runLength (hp : p '\n' = false) : StaysInLine (runLength p) where
  ends line rest := by
    simp only [runLength]
    induction line with
    | nil => rw [List.nil_append, List.takeWhile_cons_of_neg (by simp [hp]), List.takeWhile_nil]
    | cons c line ih =>
      by_cases hc : p c = true
      · rw [List.cons_append, List.takeWhile_cons_of_pos hc, List.takeWhile_cons_of_pos hc, List.length_cons, ih,
          List.length_cons]
      · rw [List.cons_append, List.takeWhile_cons_of_neg hc, List.takeWhile_cons_of_neg hc]
  le cs := (List.takeWhile_sublist p).length_le

theorem staysInLine_comment : StaysInLine comment where
  ends line rest := by
    cases line with
    | nil => rfl
    | cons c line =>
      by_cases hc : c = '#'
      · subst hc
        simp only [List.cons_append, comment, (staysInLine_runLength (p := (· ≠ '\n')) rfl).ends]
      · rw [List.cons_append, comment_eq_zero hc, comment_eq_zero hc]
  le cs := by
    cases cs with
    | nil => exact Nat.le_refl _
    | cons c cs =>
      by_cases hc : c = '#'
      · subst hc
        have := (staysInLine_runLength (p := (· ≠ '\n')) rfl).le cs
        simp only [comment, List.length_cons]
        omega
      · rw [comment_eq_zero hc]
        exact Nat.zero_le _

/-- A rule that takes a character of one class and then a run of another. -/
theorem staysInLine_headed {first part : Char → Bool} {rule : List Char → Nat} (hnil : rule [] = 0)
    (hcons : ∀ c cs, rule (c :: cs) = if first c then 1 + runLength part cs else 0)
    (hfirst : first '\n' = false) (hpart : part '\n' = false) : StaysInLine rule where
  ends line rest := by
    cases line with
    | nil => rw [List.nil_append, hcons, hnil, if_neg (by simp [hfirst])]
    | cons c line => rw [List.cons_append, hcons, hcons, (staysInLine_runLength hpart).ends]
  le cs := by
    cases cs with
    | nil => exact Nat.le_of_eq hnil
    | cons c cs =>
      have := (staysInLine_runLength hpart).le cs
      rw [hcons, List.length_cons]
      split <;> omega

theorem staysInLine_word : StaysInLine word := staysInLine_headed rfl (fun _ _ => rfl) rfl rfl

theorem staysInLine_decimal : StaysInLine decimal := staysInLine_headed rfl (fun _ _ => rfl) rfl rfl

theorem staysInLine_marked {low high : Char} (hlow : low ≠ '\n') (hhigh : high ≠ '\n') (hp : p '\n' = false) :
    StaysInLine (marked low high p) where
  ends line rest := by
    cases line with
    | nil => exact marked_eq_zero _ _ _ rfl
    | cons z line =>
      by_cases hz : z = '0'
      · subst hz
        cases line with
        | nil => simp only [List.cons_append, List.nil_append, marked, hlow.symm, hhigh.symm, or_self, false_and, if_false]
        | cons c line => simp only [List.cons_append, marked, (staysInLine_runLength hp).ends]
      · have hzero : ∀ cs, marked low high p (z :: cs) = 0 := by
          intro cs
          unfold marked
          split
          · next heq => exact absurd (List.cons.inj heq).1 hz
          · rfl
        rw [List.cons_append, hzero, hzero]
  le cs := by
    unfold marked
    split
    · next c rest =>
      have := (staysInLine_runLength hp).le rest
      dsimp only
      split
      · simp only [List.length_cons]
        omega
      · exact Nat.zero_le _
    · exact Nat.zero_le _

/-! Numbers -/

/-- Length of the sign in front of the digits of an exponent. -/
def signLength : List Char → Nat
  | '+' :: _ | '-' :: _ => 1
  | _ => 0

theorem exponent_cons (c : Char) (cs : List Char) : exponent (c :: cs) =
    if (c = 'e' ∨ c = 'E') ∧ 0 < runLength Char.isDigit (cs.drop (signLength cs)) then
      1 + signLength cs + runLength Char.isDigit (cs.drop (signLength cs)) else 0 := rfl

theorem signLength_le (cs : List Char) : signLength cs ≤ cs.length := by
  unfold signLength
  split <;> simp

theorem signLength_line (line rest : List Char) : signLength (line ++ '\n' :: rest) = signLength line := by
  cases line with
  | nil => rfl
  | cons d line =>
    by_cases hplus : d = '+'
    · rw [hplus]
      rfl
    by_cases hminus : d = '-'
    · rw [hminus]
      rfl
    simp [signLength, hplus, hminus]

theorem staysInLine_exponent : StaysInLine exponent where
  ends line rest := by
    cases line with
    | nil => simp [exponent]
    | cons c line =>
      rw [List.cons_append, exponent_cons, exponent_cons, signLength_line, List.drop_append_of_le_length (signLength_le line),
        (staysInLine_runLength (p := Char.isDigit) rfl).ends]
  le cs := by
    cases cs with
    | nil => exact Nat.le_refl _
    | cons c cs =>
      have hdigits := (staysInLine_runLength (p := Char.isDigit) rfl).le (cs.drop (signLength cs))
      have hsign := signLength_le cs
      rw [List.length_drop] at hdigits
      rw [exponent_cons, List.length_cons]
      split <;> omega

/-- Length of the digits behind the point of a number with so many digits in front of it. -/
def fraction (n : Nat) (cs : List Char) : Nat := if n = 0 then decimal cs else runLength isDigitPart cs

theorem float_eq (cs : List Char) : float cs = match cs.drop (decimal cs) with
    | '.' :: rest =>
      if decimal cs = 0 ∧ fraction (decimal cs) rest = 0 then 0
      else decimal cs + 1 + fraction (decimal cs) rest + exponent (rest.drop (fraction (decimal cs) rest))
    | rest => if 0 < decimal cs ∧ 0 < exponent rest then decimal cs + exponent rest else 0 := rfl

theorem staysInLine_fraction (n : Nat) : StaysInLine (fraction n) := by
  by_cases hn : n = 0
  · have h : fraction n = decimal := funext fun cs => if_pos hn
    exact h ▸ staysInLine_decimal
  · have h : fraction n = runLength isDigitPart := funext fun cs => if_neg hn
    exact h ▸ staysInLine_runLength rfl

theorem staysInLine_float : StaysInLine float where
  ends line rest := by
    rw [float_eq, float_eq, staysInLine_decimal.ends, List.drop_append_of_le_length (staysInLine_decimal.le line)]
    cases line.drop (decimal line) with
    | nil =>
      have h := staysInLine_exponent.ends [] rest
      rw [List.nil_append] at h ⊢
      simp [h]
    | cons c tail =>
      by_cases hc : c = '.'
      · subst hc
        simp only [List.cons_append, (staysInLine_fraction _).ends]
        rw [List.drop_append_of_le_length ((staysInLine_fraction _).le tail), staysInLine_exponent.ends]
      · have h := staysInLine_exponent.ends (c :: tail) rest
        rw [List.cons_append] at h ⊢
        simp [hc, h]
  le cs := by
    have hn := staysInLine_decimal.le cs
    rw [float_eq]
    split
    · next rest hdrop =>
      have hlen : (cs.drop (decimal cs)).length = rest.length + 1 := by rw [hdrop, List.length_cons]
      have hm := (staysInLine_fraction (decimal cs)).le rest
      have hx := staysInLine_exponent.le (rest.drop (fraction (decimal cs) rest))
      rw [List.length_drop] at hlen hx
      split
      · exact Nat.zero_le _
      · show decimal cs + 1 + fraction (decimal cs) rest + exponent (rest.drop (fraction (decimal cs) rest)) ≤ cs.length
        omega
    · have hx := staysInLine_exponent.le (cs.drop (decimal cs))
      rw [List.length_drop] at hx
      split
      · show decimal cs + exponent (cs.drop (decimal cs)) ≤ cs.length
        omega
      · exact Nat.zero_le _

theorem staysInLine_imag : StaysInLine imag where
  ends line rest := by
    have hle : max (float line) (decimal line) ≤ line.length := Nat.max_le.mpr ⟨staysInLine_float.le line, staysInLine_decimal.le line⟩
    simp only [imag, staysInLine_float.ends, staysInLine_decimal.ends]
    rw [List.drop_append_of_le_length hle]
    cases line.drop (max (float line) (decimal line)) with
    | nil => simp
    | cons c tail => rfl
  le cs := by
    simp only [imag]
    split
    · next c rest hdrop =>
      have hlen : (cs.drop (max (float cs) (decimal cs))).length = rest.length + 1 := by rw [hdrop, List.length_cons]
      rw [List.length_drop] at hlen
      split <;> omega
    · exact Nat.zero_le _

/-! Strings and signs -/

theorem stringBody_cons {quote c : Char} (hback : c ≠ '\\') (cs : List Char) :
    stringBody quote (c :: cs) = if c = quote ∨ c = '\n' then 0 else 1 + stringBody quote cs := by
  rw [stringBody]
  · exact fun _ _ h => absurd h hback
  · exact fun h => absurd h hback

/-- What neither escapes a character nor stands last is no backslash. -/
theorem ne_backslash {c : Char} {tail : List Char} (hpair : ∀ d rest, c = '\\' → tail = d :: rest → False)
    (hlone : c = '\\' → tail = [] → False) : c ≠ '\\' := by
  intro hc
  cases tail with
  | nil => exact hlone hc rfl
  | cons d rest => exact hpair d rest hc rfl

theorem staysInLine_stringBody (quote : Char) : StaysInLine (stringBody quote) where
  ends line rest := by
    fun_induction stringBody quote line with
    | case1 tail => simp [stringBody]
    | case2 c tail hc ih => simp [stringBody, hc, ih]
    | case3 => simp [stringBody]
    | case4 c tail hpair hlone hstop =>
      rw [List.cons_append, stringBody_cons (ne_backslash hpair hlone), if_pos hstop]
    | case5 c tail hpair hlone hstop ih =>
      rw [List.cons_append, stringBody_cons (ne_backslash hpair hlone), if_neg hstop, ih]
    | case6 => simp [stringBody]
  le cs := by
    fun_induction stringBody quote cs with
    | case2 c rest hc ih | case5 c rest hpair hlone hstop ih =>
      simp only [List.length_cons]
      omega
    | _ => exact Nat.zero_le _

theorem staysInLine_openString : StaysInLine openString where
  ends line rest := by
    cases line with
    | nil => rfl
    | cons c line => rw [List.cons_append, openString, openString, (staysInLine_stringBody c).ends]
  le cs := by
    cases cs with
    | nil => exact Nat.le_refl _
    | cons c cs =>
      have := (staysInLine_stringBody c).le cs
      rw [openString, List.length_cons]
      split <;> omega

theorem staysInLine_string : StaysInLine string where
  ends line rest := by
    cases line with
    | nil => rfl
    | cons c line =>
      have hopen := staysInLine_openString.ends (c :: line) rest
      have hle := staysInLine_openString.le (c :: line)
      rw [List.cons_append] at hopen
      simp only [string, List.cons_append, hopen]
      rw [← List.cons_append, List.drop_append_of_le_length hle]
      cases List.drop (openString (c :: line)) (c :: line) with
      | nil =>
        have hquote : 0 < openString (c :: line) → c ≠ '\n' := by
          rintro h rfl
          cases h
        simp only [List.nil_append, List.cons_append]
        exact if_neg fun h => hquote h.1 h.2
      | cons d tail => rfl
  le cs := by
    cases cs with
    | nil => exact Nat.zero_le _
    | cons c cs =>
      simp only [string]
      split
      · next d tail _ hdrop =>
        have hlen : ((c :: cs).drop (openString (c :: cs))).length = tail.length + 1 := by rw [hdrop, List.length_cons]
        rw [List.length_drop] at hlen
        split <;> omega
      · exact Nat.zero_le _

theorem newline_not_mem_text (s : Symbol) : '\n' ∉ s.text.toList := by cases s <;> decide

theorem isPrefixOf_line {text : List Char} (h : '\n' ∉ text) (line rest : List Char) :
    text.isPrefixOf (line ++ '\n' :: rest) = text.isPrefixOf line := by
  induction text generalizing line with
  | nil => simp
  | cons c text ih =>
    obtain ⟨hc, htext⟩ := not_or.mp (List.mem_cons.not.mp h)
    cases line with
    | nil => simp [List.isPrefixOf, Ne.symm hc]
    | cons d line => simp only [List.cons_append, List.isPrefixOf_cons_cons, ih htext]

theorem staysInLine_symbol (s : Symbol) : StaysInLine (symbol s) where
  ends line rest := by rw [symbol, symbol, isPrefixOf_line (newline_not_mem_text s)]
  le cs := by
    rw [symbol]
    split
    · next h =>
      rw [← String.length_toList]
      exact (List.isPrefixOf_iff_prefix.mp h).length_le
    · exact Nat.zero_le _

/-! The longest piece of a line -/

theorem joined_line (line rest : List Char) : joined (line ++ '\n' :: rest) = joined (line ++ ['\n']) := by
  cases line with
  | nil => rfl
  | cons c line =>
    by_cases hc : c = '\\'
    · subst hc
      match line with
      | [] => rfl
      | [d] => by_cases hd : d = '\n' <;> by_cases hr : d = '\r' <;> simp_all [joined]
      | d :: e :: line => by_cases hd : d = '\n' <;> by_cases hr : d = '\r' <;> by_cases he : e = '\n' <;> simp_all [joined]
    · exact (joined_eq_zero hc).trans (joined_eq_zero hc).symm

theorem rule_cases {r : Kind × (List Char → Nat)} (hr : r ∈ rules) :
    StaysInLine r.2 ∨ r = (.skip, joined) ∨ r = (.newline, newline) := by
  simp only [rules, List.mem_append, List.mem_map, List.mem_cons, List.not_mem_nil, or_false] at hr
  rcases hr with (rfl | rfl | rfl | rfl | rfl | rfl | rfl | rfl | rfl | rfl | rfl | rfl | rfl) | ⟨s, -, rfl⟩
  · exact .inl (staysInLine_runLength rfl)
  · exact .inl staysInLine_comment
  · exact .inr (.inl rfl)
  · exact .inr (.inr rfl)
  · exact .inl staysInLine_word
  · exact .inl staysInLine_decimal
  · exact .inl (staysInLine_marked (by decide) (by decide) rfl)
  · exact .inl (staysInLine_marked (by decide) (by decide) rfl)
  · exact .inl (staysInLine_marked (by decide) (by decide) rfl)
  · exact .inl staysInLine_float
  · exact .inl staysInLine_imag
  · exact .inl staysInLine_string
  · exact .inl staysInLine_openString
  · exact .inl (staysInLine_symbol s)

/-- No rule looks behind the end of a line. -/
theorem rule_line {r : Kind × (List Char → Nat)} (hr : r ∈ rules) (line rest : List Char) :
    r.2 (line ++ '\n' :: rest) = r.2 (line ++ ['\n']) := by
  rcases rule_cases hr with h | rfl | rfl
  · rw [h.ends, h.ends]
  · exact joined_line line rest
  · cases line with
    | nil => rfl
    | cons c line =>
      by_cases hc : c = '\n'
      · rw [hc]
        rfl
      · exact (newline_eq_zero hc).trans (newline_eq_zero hc).symm

theorem rule_le {r : Kind × (List Char → Nat)} (hr : r ∈ rules) (cs : List Char) : r.2 cs ≤ cs.length := by
  rcases rule_cases hr with h | rfl | rfl
  · exact h.le cs
  · simp only [joined]
    split <;> simp
  · simp only [newline]
    split <;> simp

theorem longest_line (line rest : List Char) : longest (line ++ '\n' :: rest) = longest (line ++ ['\n']) := by
  rw [longest_eq_foldl, longest_eq_foldl]
  refine List.foldl_ext _ _ _ fun best r hr => ?_
  rw [better, better, rule_line hr]

theorem longest_le (cs : List Char) : (longest cs).2 ≤ cs.length := by
  rw [longest_eq_foldl]
  rcases @foldl_better_mem cs rules (.invalid, 0) with h | ⟨r, hr, h⟩
  · rw [h]
    exact Nat.zero_le _
  · rw [h]
    exact rule_le hr cs

/-! Line by line -/

/-- A backslash that joins its line to the next one. -/
def Joins (l : Lexeme) : Prop := l.kind = .skip ∧ l.text.head? = some '\\'

theorem scan_of_ne_nil (offset : Nat) (hne : cs ≠ []) : scan offset cs =
    ⟨(longest cs).1, cs.take (max 1 (longest cs).2), ⟨offset, offset + Text.bytes (cs.take (max 1 (longest cs).2))⟩⟩ ::
      scan (offset + Text.bytes (cs.take (max 1 (longest cs).2))) (cs.drop (max 1 (longest cs).2)) := by
  cases cs with
  | nil => exact absurd rfl hne
  | cons c cs => rw [scan]

/-- Only a newline or a joined line is a piece up to the end of a line. -/
theorem longest_to_end (h : (longest (line ++ ['\n'])).2 = line.length + 1) :
    (longest (line ++ ['\n'])).1 = .newline ∨
      (longest (line ++ ['\n'])).1 = .skip ∧ (line ++ ['\n']).head? = some '\\' := by
  rw [longest_eq_foldl] at h ⊢
  rcases @foldl_better_mem (line ++ ['\n']) rules (.invalid, 0) with hnone | ⟨r, hr, hbest⟩
  · rw [hnone] at h
    cases h
  · rw [hbest] at h ⊢
    rcases rule_cases hr with hstays | rfl | rfl
    · have hle := hstays.le line
      rw [hstays.ends] at h
      omega
    · refine .inr ⟨rfl, ?_⟩
      cases hline : line ++ ['\n'] with
      | nil => simp at hline
      | cons c cs =>
        by_cases hc : c = '\\'
        · rw [hc]
          rfl
        · rw [hline] at h
          exact absurd ((joined_eq_zero hc).symm.trans h) (Nat.succ_ne_zero _).symm
    · exact .inl rfl

theorem longest_newline_pos (cs : List Char) : 0 < (longest ('\n' :: cs)).2 :=
  @le_longest ('\n' :: cs) (.newline, newline) (by simp [rules])

/-- A piece that is not inside the line is all of it. -/
theorem longest_whole (h : line.length < max 1 (longest (line ++ ['\n'])).2) :
    (longest (line ++ ['\n'])).2 = line.length + 1 := by
  have hle := longest_le (line ++ ['\n'])
  rw [List.length_append, List.length_singleton] at hle
  cases line with
  | nil =>
    have hpos := longest_newline_pos []
    simp only [List.nil_append, List.length_nil] at *
    omega
  | cons c line =>
    simp only [List.length_cons] at *
    omega

/-- Lines are cut apart: the last piece of one is a newline, or a backslash that joins it to the
next one, and the pieces up to there do not depend on what comes behind. -/
theorem scan_line (line : List Char) (offset : Nat) : ∃ ls l, (l.kind = .newline ∨ l.Joins) ∧
    l.span.stop = offset + Text.bytes (line ++ ['\n']) ∧
    ∀ rest, scan offset (line ++ '\n' :: rest) = ls ++ l :: scan (offset + Text.bytes (line ++ ['\n'])) rest := by
  induction hlen : line.length using Nat.strongRecOn generalizing line offset with
  | ind length ih =>
    subst hlen
    have hscan : ∀ rest, scan offset (line ++ '\n' :: rest) = _ := fun rest =>
      (scan_of_ne_nil offset (List.append_ne_nil_of_right_ne_nil line (List.cons_ne_nil _ _))).trans
        (by rw [longest_line])
    generalize hn : max 1 (longest (line ++ ['\n'])).2 = n at hscan
    by_cases hend : n ≤ line.length
    · obtain ⟨ls, l, hl, hstop, hrest⟩ := ih (line.drop n).length (by rw [List.length_drop]; omega) (line.drop n)
        (offset + Text.bytes (line.take n)) rfl
      have hbytes : offset + Text.bytes (line.take n) + Text.bytes (line.drop n ++ ['\n']) =
          offset + Text.bytes (line ++ ['\n']) := by
        rw [Nat.add_assoc, ← Text.bytes_append, ← List.append_assoc, List.take_append_drop]
      rw [hbytes] at hstop hrest
      refine ⟨⟨(longest (line ++ ['\n'])).1, line.take n, ⟨offset, offset + Text.bytes (line.take n)⟩⟩ :: ls, l, hl, hstop, ?_⟩
      intro rest
      rw [hscan, List.take_append_of_le_length hend, List.drop_append_of_le_length hend, hrest, List.cons_append]
    · have hwhole := @longest_whole line (by omega)
      have hn' : n = (line ++ ['\n']).length := by
        rw [List.length_append, List.length_singleton]
        omega
      refine ⟨[], ⟨(longest (line ++ ['\n'])).1, line ++ ['\n'], ⟨offset, offset + Text.bytes (line ++ ['\n'])⟩⟩,
        longest_to_end hwhole, rfl, ?_⟩
      intro rest
      have hcons : line ++ '\n' :: rest = line ++ ['\n'] ++ rest := List.append_cons ..
      rw [hscan, hcons, hn', List.take_left, List.drop_left, List.nil_append]

end CseMachine.Lexeme

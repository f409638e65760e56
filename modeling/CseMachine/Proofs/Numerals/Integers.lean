import CseMachine.Builtin.Call
import CseMachine.Proofs.Numerals

/-!
# Texts of integers

`int` takes a text exactly if it is white space, a sign or none, digits with single
underscores between some of them, and white space again, and then the answer is the
number that the digits write. Any other text is a bad value. What `repr` writes of an
integer is such a text, so it is read back.
-/
namespace CseMachine

namespace Text

variable {written plain body : List Char} {i : Int}

/-- The number with a sign in front. -/
def Sign.apply (sign : Sign) (n : Nat) : Int := if sign.isMinus then -n else n

/-- A text of this integer: white space may stand around it and one sign in front of its digits, and
underscores only between two digits. -/
def IntText (written : List Char) (i : Int) : Prop :=
  ∃ sign body, Framed sign body written ∧ body ≠ [] ∧ (∀ c ∈ body, c.isDigit = true ∨ c = '_') ∧
    Between '_' (·.isDigit = true) body ∧ i = sign.apply (Nat.ofDigitChars 10 (body.filter Char.isDigit) 0)

/-- Between digits alone the underscores are between two digits. -/
theorem intText_iff_spells : IntText written i ↔ ∃ sign plain, Spells sign plain written ∧ Digits plain ∧
    i = sign.apply (Nat.ofDigitChars 10 plain 0) := by
  constructor
  · rintro ⟨sign, body, hframed, hne, hchars, hbetween, rfl⟩
    have hother : Between '_' (· ≠ '_') body := by
      refine hbetween.mono fun c _ hc => ?_
      rintro rfl
      cases hc
    have hplain : body.filter Char.isDigit = body.filter (· ≠ '_') := by
      refine List.filter_congr fun c hc => ?_
      rcases hchars c hc with hd | rfl
      · have hu : c ≠ '_' := by
          rintro rfl
          cases hd
        rw [hd, decide_eq_true hu]
      · rfl
    have hdigits : Digits (body.filter Char.isDigit) := by
      refine ⟨fun hnil => ?_, fun c hc => (List.mem_filter.mp hc).2⟩
      obtain ⟨c, rest, rfl⟩ := List.exists_cons_of_ne_nil hne
      have hhead := head?_filter_underscore (between_underscore_iff.mp hother).1
      rw [← hplain, hnil] at hhead
      cases hhead
    exact ⟨sign, body.filter Char.isDigit, ⟨body, hframed, hother, hplain.symm⟩, hdigits, rfl⟩
  · rintro ⟨sign, plain, ⟨body, hframed, hbetween, rfl⟩, hdigits, rfl⟩
    have hchar : ∀ c ∈ body, c ≠ '_' → c.isDigit = true := fun c hc hu =>
      hdigits.all c (List.mem_filter.mpr ⟨hc, decide_eq_true hu⟩)
    refine ⟨sign, body, hframed, ?_, ?_, hbetween.mono hchar, ?_⟩
    · rintro rfl
      exact hdigits.nonempty rfl
    · intro c hc
      by_cases hu : c = '_'
      · exact .inr hu
      · exact .inl (hchar c hc hu)
    · have hplain : body.filter (· ≠ '_') = body.filter Char.isDigit := by
        refine List.filter_congr fun c hc => ?_
        by_cases hu : c = '_'
        · rw [hu]
          rfl
        · rw [hchar c hc hu, decide_eq_true hu]
      rw [hplain]

theorem toInt?_eq_some {text : String} : toInt? text = some i ↔ IntText text.toList i := by
  rw [intText_iff_spells]
  constructor
  · intro h
    simp only [toInt?, Option.bind_eq_bind, Option.bind_eq_some_iff] at h
    obtain ⟨cs, hdrop, hread⟩ := h
    generalize hsplit : splitSign cs = parts at hread
    obtain ⟨negative, digits⟩ := parts
    split at hread
    · cases hread
    · next hdigits =>
      have hd := digits_iff.mp (Bool.eq_false_iff.mpr hdigits)
      obtain ⟨sign, rfl, hs⟩ := spells_of_reads hd.bare hdrop hsplit
      exact ⟨sign, digits, hs, hd, (Option.some.inj hread).symm⟩
  · rintro ⟨sign, plain, hs, hd, rfl⟩
    simp only [toInt?, hs.reads hd.bare, Option.bind_eq_bind, Option.bind_some, splitSign_text sign hd.unsigned,
      digits_iff.mpr hd]
    rfl

/-- What is written of an integer is a text of it. -/
theorem intText_repr (i : Int) : IntText (toString i).toList i := by
  have htext : ∃ sign : Sign, ∃ n : Nat, (toString i).toList = sign.text ++ Nat.toDigits 10 n ∧ i = sign.apply n := by
    cases i with
    | ofNat n =>
      refine ⟨.absent, n, ?_, rfl⟩
      exact Nat.toList_repr
    | negSucc n =>
      refine ⟨.minus, n + 1, ?_, rfl⟩
      show ("-" ++ (n + 1).repr).toList = "-".toList ++ Nat.toDigits 10 (n + 1)
      rw [String.toList_append, Nat.toList_repr]
  obtain ⟨sign, n, hlist, hi⟩ := htext
  have hd : ∀ c ∈ Nat.toDigits 10 n, c.isDigit = true := fun c hc => Nat.isDigit_of_mem_toDigits (by decide) (by decide) hc
  have hframed : Framed sign (Nat.toDigits 10 n) (toString i).toList :=
    ⟨[], [], nofun, nofun, by rw [hlist, List.nil_append, List.append_nil]⟩
  have hall : (Nat.toDigits 10 n).filter Char.isDigit = Nat.toDigits 10 n := List.filter_eq_self.mpr hd
  refine ⟨sign, Nat.toDigits 10 n, hframed, Nat.toDigits_ne_nil, fun c hc => .inl (hd c hc), ?_, ?_⟩
  · rintro before after h
    have hu := hd '_' (h ▸ List.mem_append_right _ List.mem_cons_self)
    cases hu
  · rw [hall, Nat.ofDigitChars_ten_toDigits]
    exact hi

end Text

theorem Value.repr_int (store : Store) (i : Int) : Value.repr store (.int i) = toString i := by
  simp only [Value.repr]
  cases store.next <;> rfl

namespace Builtin

open Text (IntText)

variable {store : Store} {s : String} {i : Int}

theorem call_int_read (h : IntText s.toList i) : call store .int [.str s] = .ok (.int i) := by
  show Value.int <$> toInt (.str s) = _
  simp only [toInt, Text.toInt?_eq_some.mpr h]
  rfl

theorem call_int_unread (h : ¬∃ i, IntText s.toList i) : call store .int [.str s] = fail (.badValue (.intLiteral s)) := by
  have hnone : Text.toInt? s = none := Option.eq_none_iff_forall_ne_some.mpr fun i hi => h ⟨i, Text.toInt?_eq_some.mp hi⟩
  show Value.int <$> toInt (.str s) = _
  simp only [toInt, hnone]
  rfl

theorem call_repr_int : call store .repr [.int i] = .ok (.str (toString i)) := by
  show Except.ok (Value.str (Value.repr store (.int i))) = _
  rw [Value.repr_int]

/-- `int` takes the texts of integers and no others, and undoes `repr`. -/
theorem int_reads (store : Store) :
    (∀ s v, call store .int [.str s] = .ok v ↔ ∃ i, v = .int i ∧ IntText s.toList i) ∧
    (∀ s, (¬∃ i, IntText s.toList i) → call store .int [.str s] = fail (.badValue (.intLiteral s))) ∧
    ∀ i : Int, ∃ s, call store .repr [.int i] = .ok (.str s) ∧ call store .int [.str s] = .ok (.int i) := by
  refine ⟨fun s v => ⟨fun h => ?_, ?_⟩, fun s => call_int_unread,
    fun i => ⟨toString i, call_repr_int, call_int_read (Text.intText_repr i)⟩⟩
  · by_cases htext : ∃ i, IntText s.toList i
    · obtain ⟨i, hi⟩ := htext
      rw [call_int_read hi] at h
      cases h
      exact ⟨i, rfl, hi⟩
    · rw [call_int_unread htext] at h
      cases h
  · rintro ⟨i, rfl, h⟩
    exact call_int_read h

theorem int_reads_separated :
    (IntText " -1_000\n".toList (-1000) ∧ call .empty .int [.str " -1_000\n"] = .ok (.int (-1000))) ∧
    (¬∃ i, IntText "1__0".toList i) ∧ call .empty .int [.str "1__0"] = fail (.badValue (.intLiteral "1__0")) := by
  obtain ⟨hreads, hfails, -⟩ := int_reads .empty
  have hint : IntText " -1_000\n".toList (-1000) := Text.toInt?_eq_some.mp (by decide)
  have hnone : ¬∃ i, IntText "1__0".toList i := by
    rintro ⟨i, hi⟩
    have hread : Text.toInt? "1__0" = none := by decide
    cases hread.symm.trans (Text.toInt?_eq_some.mpr hi)
  exact ⟨⟨hint, (hreads _ _).mpr ⟨_, rfl, hint⟩⟩, hnone, hfails _ hnone⟩

end Builtin
end CseMachine

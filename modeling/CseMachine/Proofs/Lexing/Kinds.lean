import CseMachine.Proofs.Lexing
import CseMachine.Proofs.Surface
import CseMachine.Text.Quoted
import Mathlib.Data.List.Nodup

/-!
# What the rules take

Blanks, comments, newlines, words, numbers, strings and signs are the longest piece of a
source that starts with them, if the character behind them does not belong to them.
-/
namespace CseMachine

namespace Symbol

theorem mem_all (s : Symbol) : s ∈ all := by cases s <;> decide

theorem text_injective {s s' : Symbol} (h : s.text.toList = s'.text.toList) : s = s' := by
  have hnodup : (all.map (·.text.toList)).Nodup := by decide
  exact List.inj_on_of_nodup_map hnodup s.mem_all s'.mem_all h

theorem text_cases (s : Symbol) : (∃ a, s.text.toList = [a]) ∨ ∃ a b, s.text.toList = [a, b] := by
  cases s
  all_goals first | exact .inl ⟨_, rfl⟩ | exact .inr ⟨_, _, rfl⟩

/-- Another sign starts with this one. -/
def canGrow : Symbol → Bool
  | .star | .slash | .assign | .lt | .gt => true
  | _ => false

end Symbol

namespace Lexeme

variable {cs : List Char} {c : Char} {k : Kind}

/-- Of each kind but `skip` there is one rule. -/
theorem rule_of_kind {r r' : Kind × (List Char → Nat)} (hr : r ∈ rules) (hr' : r' ∈ rules) (hk : r.1 = r'.1)
    (hs : r.1 ≠ .skip) : r = r' := by
  have hnodup : ((rules.drop 3).map Prod.fst).Nodup := by decide
  have hdrop : ∀ {r}, r ∈ rules → r.1 ≠ .skip → r ∈ rules.drop 3 := by
    intro r hr hs
    simp only [rules, List.cons_append, List.mem_cons] at hr
    rcases hr with rfl | rfl | rfl | hr
    · exact absurd rfl hs
    · exact absurd rfl hs
    · exact absurd rfl hs
    · simpa only [rules, List.cons_append, List.drop_succ_cons, List.drop_zero, List.mem_cons] using hr
  exact List.inj_on_of_nodup_map hnodup (hdrop hr hs) (hdrop hr' (hk ▸ hs)) hk

/-- A rule wins if those that may start like it take less. -/
theorem longest_eq_of_starts {rule : List Char → Nat} {n : Nat} (hr : (k, rule) ∈ rules) (hs : k ≠ .skip)
    (hn : rule (c :: cs) = n) (hpos : 0 < n)
    (hlt : ∀ r ∈ rules, r.1 ≠ k → r.1.starts c = true → r.2 (c :: cs) < n) : longest (c :: cs) = (k, n) := by
  have hothers : ∀ r ∈ rules, r.1 ≠ k → r.2 (c :: cs) < n := by
    intro r hr hk
    by_cases hc : r.1.starts c = true
    · exact hlt r hr hk hc
    · rw [rule_eq_zero hr (eq_false_of_ne_true hc)]
      exact hpos
  refine longest_eq hr hn hpos ?_ hothers
  intro r hr'
  by_cases hk : r.1 = k
  · rw [← rule_of_kind hr hr' hk.symm hs]
    exact Nat.le_of_eq hn
  · exact Nat.le_of_lt (hothers r hr' hk)

theorem runLength_append {p : Char → Bool} {run : List Char} (hp : ∀ c ∈ run, p c = true)
    (hstop : ∀ c ∈ cs.head?, p c = false) : runLength p (run ++ cs) = run.length := by
  simp only [runLength]
  rw [List.takeWhile_append_of_pos hp, List.length_append]
  cases cs with
  | nil => rfl
  | cons c cs =>
    rw [List.takeWhile_cons_of_neg (by simp [hstop c rfl])]
    rfl

/-! Blanks and comments -/

theorem isBlank_cases (h : isBlank c = true) : c = ' ' ∨ c = '\t' ∨ c = '\x0c' ∨ c = '\r' := by
  simpa only [isBlank, Bool.or_eq_true, decide_eq_true_eq, or_assoc] using h

theorem skip_of_starts (hc : isBlank c = true ∨ c = '#') (h : k.starts c = true) : k = .skip := by
  have hcases : c = ' ' ∨ c = '\t' ∨ c = '\x0c' ∨ c = '\r' ∨ c = '#' := by
    simpa only [or_assoc] using hc.imp_left isBlank_cases
  cases k with
  | skip => rfl
  | symbol s => rcases hcases with rfl | rfl | rfl | rfl | rfl <;> cases s <;> cases h
  | _ => rcases hcases with rfl | rfl | rfl | rfl | rfl <;> cases h

/-- What is skipped and starts so is the longest piece if each rule for what is skipped takes no more. -/
theorem longest_skip {rule : List Char → Nat} {n : Nat} (hr : (.skip, rule) ∈ rules) (hn : rule (c :: cs) = n)
    (hpos : 0 < n) (hc : isBlank c = true ∨ c = '#') (hblank : blank (c :: cs) ≤ n) (hcomment : comment (c :: cs) ≤ n) :
    longest (c :: cs) = (.skip, n) := by
  have hothers : ∀ r ∈ rules, r.1 ≠ .skip → r.2 (c :: cs) = 0 := by
    intro r hr hk
    exact rule_eq_zero hr (eq_false_of_ne_true fun h => hk (skip_of_starts hc h))
  have hback : c ≠ '\\' := by
    rintro rfl
    rcases hc with hc | hc <;> cases hc
  refine longest_eq hr hn hpos ?_ ?_
  · intro r hr
    by_cases hk : r.1 = .skip
    · simp only [rules, List.mem_append, List.mem_map, List.mem_cons, List.not_mem_nil, or_false] at hr
      rcases hr with (rfl | rfl | rfl | rfl | rfl | rfl | rfl | rfl | rfl | rfl | rfl | rfl | rfl) | ⟨s, -, rfl⟩
      · exact hblank
      · exact hcomment
      · exact Nat.le_trans (Nat.le_of_eq (joined_eq_zero hback)) (Nat.zero_le _)
      all_goals cases hk
    · rw [hothers r hr hk]
      exact Nat.zero_le _
  · intro r hr hk
    rw [hothers r hr hk]
    exact hpos

theorem longest_blank {run : List Char} (hne : run ≠ []) (hrun : ∀ c ∈ run, isBlank c = true)
    (hstop : ∀ c ∈ cs.head?, isBlank c = false) : longest (run ++ cs) = (.skip, run.length) := by
  have hlength : blank (run ++ cs) = run.length := runLength_append hrun hstop
  cases run with
  | nil => exact absurd rfl hne
  | cons c run =>
    have hc := hrun c (.head _)
    have hhash : c ≠ '#' := by
      rintro rfl
      cases hc
    rw [List.cons_append] at hlength ⊢
    refine longest_skip (.head _) hlength (Nat.succ_pos _) (.inl hc) (Nat.le_of_eq hlength) ?_
    rw [comment_eq_zero hhash]
    exact Nat.zero_le _

theorem longest_blanks {n : Nat} (hn : 0 < n) (hstop : ∀ c ∈ cs.head?, isBlank c = false) :
    longest (List.replicate n ' ' ++ cs) = (.skip, n) := by
  have hne : List.replicate n ' ' ≠ [] := by
    rw [Ne, List.replicate_eq_nil_iff]
    omega
  have hrun : ∀ c ∈ List.replicate n ' ', isBlank c = true := by
    intro c hc
    rw [List.eq_of_mem_replicate hc]
    rfl
  rw [longest_blank hne hrun hstop, List.length_replicate]

theorem longest_comment {body : List Char} (hbody : '\n' ∉ body) (hstop : ∀ c ∈ cs.head?, c = '\n') :
    longest ('#' :: (body ++ cs)) = (.skip, body.length + 1) := by
  have hrun : runLength (· ≠ '\n') (body ++ cs) = body.length := by
    refine runLength_append (fun c hc => ?_) fun c hc => ?_
    · exact decide_eq_true fun h => hbody (h ▸ hc)
    · exact decide_eq_false fun h => h (hstop c hc)
  have hlength : comment ('#' :: (body ++ cs)) = body.length + 1 := by
    rw [comment, hrun]
    omega
  exact longest_skip (.tail _ (.head _)) hlength (Nat.succ_pos _) (.inr rfl) (Nat.zero_le _) (Nat.le_of_eq hlength)

/-! Newlines -/

theorem newline_of_starts (h : k.starts '\n' = true) : k = .newline := by
  cases k with
  | newline => rfl
  | symbol s => cases s <;> cases h
  | _ => cases h

theorem scan_newline (offset : Nat) (cs : List Char) :
    scan offset ('\n' :: cs) = ⟨.newline, ['\n'], ⟨offset, offset + 1⟩⟩ :: scan (offset + 1) cs := by
  have h : longest (['\n'] ++ cs) = (.newline, 1) := by
    refine longest_eq_of_starts (show (Kind.newline, newline) ∈ rules by simp [rules]) (by decide) rfl (by decide) ?_
    intro r _ hk hs
    exact absurd (newline_of_starts hs) hk
  exact scan_append offset (by simp) h

/-! Words -/

theorem isAlpha_iff : c.isAlpha = true ↔ (65 ≤ c.toNat ∧ c.toNat ≤ 90) ∨ (97 ≤ c.toNat ∧ c.toNat ≤ 122) := by
  change (decide (c.val ≥ 'A'.val ∧ c.val ≤ 'Z'.val) || (decide (c.val ≥ 'a'.val) && decide (c.val ≤ 'z'.val))) = true ↔ _
  simp only [Bool.or_eq_true, Bool.and_eq_true, decide_eq_true_eq, ge_iff_le, UInt32.le_iff_toNat_le]
  rfl

theorem isWordStart_iff : isWordStart c = true ↔
    (65 ≤ c.toNat ∧ c.toNat ≤ 90) ∨ (97 ≤ c.toNat ∧ c.toNat ≤ 122) ∨ c.toNat = 95 := by
  simp only [isWordStart, Bool.or_eq_true, decide_eq_true_eq, isAlpha_iff, or_assoc, ← Char.toNat_inj]
  rfl

theorem isDigit_iff : c.isDigit = true ↔ 48 ≤ c.toNat ∧ c.toNat ≤ 57 := Char.isDigit_iff_toNat

theorem not_isWordStart_of_isDigit (h : c.isDigit = true) : ¬ isWordStart c = true := by
  intro hw
  have := isDigit_iff.mp h
  have := isWordStart_iff.mp hw
  omega

theorem isDigit_cases (h : (c.isDigit || c = '.') = true) : c.isDigit = true ∨ c = '.' := by
  simpa only [Bool.or_eq_true, decide_eq_true_eq] using h

theorem skip_cases (h : Kind.skip.starts c = true) :
    c = ' ' ∨ c = '\t' ∨ c = '\x0c' ∨ c = '\r' ∨ c = '#' ∨ c = '\\' := by
  simpa only [Kind.starts, isBlank, Bool.or_eq_true, decide_eq_true_eq, or_assoc] using h

theorem quote_cases (h : Kind.string.starts c = true) : c = '"' ∨ c = '\'' := by
  simpa only [Kind.starts, Bool.or_eq_true, decide_eq_true_eq] using h

theorem isWordPart_of_isWordStart (h : isWordStart c = true) : isWordPart c = true := by
  simp only [isWordStart, isWordPart, Char.isAlphanum, Bool.or_eq_true] at h ⊢
  exact h.imp_left .inl

theorem isWordPart_of_isDigit (h : c.isDigit = true) : isWordPart c = true := by
  simp only [isWordPart, Char.isAlphanum, h, Bool.or_true, Bool.true_or]

/-- What starts with a letter, a digit or an underscore is a word or a number. -/
theorem wordlike_of_starts (hc : isWordPart c = true) (h : k.starts c = true) :
    k = .word ∨ k = .decimal ∨ k = .hex ∨ k = .octal ∨ k = .binary ∨ k = .float ∨ k = .imag := by
  cases k with
  | word | decimal | hex | octal | binary | float | imag => simp
  | skip => rcases skip_cases h with rfl | rfl | rfl | rfl | rfl | rfl <;> cases hc
  | newline =>
    obtain rfl := of_decide_eq_true h
    cases hc
  | string => rcases quote_cases h with rfl | rfl <;> cases hc
  | openString => rcases quote_cases h with rfl | rfl <;> cases hc
  | symbol s =>
    have h := of_decide_eq_true h
    cases s <;> obtain rfl := Option.some.inj h <;> cases hc
  | invalid => cases h

theorem word_of_starts (hc : isWordStart c = true) (h : k.starts c = true) : k = .word := by
  have hdigit : c.isDigit = true → False := fun h => not_isWordStart_of_isDigit h hc
  have hpoint : (c.isDigit || c = '.') = true → False := by
    intro h
    rcases isDigit_cases h with h | rfl
    · exact hdigit h
    · cases hc
  rcases wordlike_of_starts (isWordPart_of_isWordStart hc) h with rfl | rfl | rfl | rfl | rfl | rfl | rfl
  · rfl
  · exact (hdigit h).elim
  · exact (hdigit h).elim
  · exact (hdigit h).elim
  · exact (hdigit h).elim
  · exact (hpoint h).elim
  · exact (hpoint h).elim

theorem longest_word {w : List Char} (hw : Surface.isWord w = true) (hstop : ∀ c ∈ cs.head?, isWordPart c = false) :
    longest (w ++ cs) = (.word, w.length) := by
  cases w with
  | nil => cases hw
  | cons c w =>
    simp only [Surface.isWord, Bool.and_eq_true, List.all_eq_true] at hw
    have hrun : word (c :: (w ++ cs)) = (c :: w).length := by
      simp only [word, hw.1, if_true, runLength_append hw.2 hstop, List.length_cons]
      omega
    rw [List.cons_append]
    refine longest_eq_of_starts (by simp [rules]) (by decide) hrun (Nat.succ_pos _) ?_
    intro r _ hk hs
    exact absurd (word_of_starts hw.1 hs) hk

/-! Numbers -/

theorem number_of_starts (hc : c.isDigit = true) (h : k.starts c = true) :
    k = .decimal ∨ k = .hex ∨ k = .octal ∨ k = .binary ∨ k = .float ∨ k = .imag := by
  refine (wordlike_of_starts (isWordPart_of_isDigit hc) h).resolve_left ?_
  rintro rfl
  exact not_isWordStart_of_isDigit hc h

/-- What can stand behind a number: no letter, digit or point. -/
def endsNumber (c : Char) : Bool := !isWordPart c && c ≠ '.'

theorem exponent_eq_zero (hstop : ∀ c ∈ cs.head?, endsNumber c = true) : exponent cs = 0 := by
  cases cs with
  | nil => rfl
  | cons c cs =>
    have hc : ¬(c = 'e' ∨ c = 'E') := by
      rintro (rfl | rfl)
      · cases hstop _ rfl
      · cases hstop _ rfl
    simp only [exponent, hc, false_and, if_false]

section

variable {w : List Char} (hw : ∀ d ∈ w, d.isDigit = true) (hstop : ∀ d ∈ cs.head?, endsNumber d = true)
include hw hstop

theorem decimal_digits (hc : c.isDigit = true) : decimal (c :: (w ++ cs)) = w.length + 1 := by
  have hpart : ∀ d ∈ w, isDigitPart d = true := by
    intro d hd
    simp only [isDigitPart, hw d hd, Bool.true_or]
  have hends : ∀ d ∈ cs.head?, isDigitPart d = false := by
    intro d hd
    have h := hstop d hd
    simp only [endsNumber, isWordPart, Char.isAlphanum, isDigitPart] at h ⊢
    simp_all
  simp only [decimal, hc, if_true, runLength_append hpart hends]
  omega

theorem float_digits (hc : c.isDigit = true) : float (c :: (w ++ cs)) = 0 := by
  have hdrop : (c :: (w ++ cs)).drop (w.length + 1) = cs := by rw [List.drop_succ_cons, List.drop_left]
  simp only [float, decimal_digits hw hstop hc, hdrop]
  split
  · cases hstop _ rfl
  · rw [exponent_eq_zero hstop]
    rfl

theorem imag_digits (hc : c.isDigit = true) : imag (c :: (w ++ cs)) = 0 := by
  have hdrop : (c :: (w ++ cs)).drop (w.length + 1) = cs := by rw [List.drop_succ_cons, List.drop_left]
  simp only [imag, float_digits hw hstop hc, decimal_digits hw hstop hc, Nat.zero_max, hdrop]
  split
  · next d rest =>
    have hd : ¬(d = 'j' ∨ d = 'J') := by
      rintro (rfl | rfl)
      · cases hstop _ rfl
      · cases hstop _ rfl
    simp only [hd, and_false, if_false]
  · rfl

theorem marked_digits {low high : Char} {p : Char → Bool} (hlow : isWordPart low = true ∧ low.isDigit = false)
    (hhigh : isWordPart high = true ∧ high.isDigit = false) : marked low high p (c :: (w ++ cs)) = 0 := by
  have hsecond : ∀ d ∈ (w ++ cs).head?, ∀ e, isWordPart e = true ∧ e.isDigit = false → d ≠ e := by
    rintro d hd e ⟨he, hdigit⟩ rfl
    cases w with
    | nil =>
      have h := hstop d hd
      simp [endsNumber, he] at h
    | cons f w =>
      obtain rfl := Option.some.inj hd
      rw [hw _ (.head _)] at hdigit
      cases hdigit
  unfold marked
  split
  · next d rest heq =>
    obtain ⟨-, heq⟩ := List.cons.inj heq
    have hd : d ∈ (w ++ cs).head? := by rw [heq]; rfl
    simp only [hsecond d hd low hlow, hsecond d hd high hhigh, or_self, false_and, if_false]
  · rfl

end

theorem longest_digits {w : List Char} (hne : w ≠ []) (hw : ∀ c ∈ w, c.isDigit = true)
    (hstop : ∀ c ∈ cs.head?, endsNumber c = true) : longest (w ++ cs) = (.decimal, w.length) := by
  cases w with
  | nil => exact absurd rfl hne
  | cons c w =>
    have hc := hw c (.head _)
    have hrest : ∀ d ∈ w, d.isDigit = true := fun d hd => hw d (.tail _ hd)
    rw [List.cons_append]
    refine longest_eq_of_starts (by simp [rules]) (by decide) (decimal_digits hrest hstop hc) (Nat.succ_pos _) ?_
    intro r hr hk hs
    have hzero : r.2 (c :: (w ++ cs)) = 0 := by
      rcases number_of_starts hc hs with h | h | h | h | h | h
      · exact absurd h hk
      · rw [rule_of_kind hr (show (Kind.hex, hex) ∈ rules by simp [rules]) h (by rw [h]; decide)]
        exact marked_digits hrest hstop ⟨rfl, rfl⟩ ⟨rfl, rfl⟩
      · rw [rule_of_kind hr (show (Kind.octal, octal) ∈ rules by simp [rules]) h (by rw [h]; decide)]
        exact marked_digits hrest hstop ⟨rfl, rfl⟩ ⟨rfl, rfl⟩
      · rw [rule_of_kind hr (show (Kind.binary, binary) ∈ rules by simp [rules]) h (by rw [h]; decide)]
        exact marked_digits hrest hstop ⟨rfl, rfl⟩ ⟨rfl, rfl⟩
      · rw [rule_of_kind hr (show (Kind.float, float) ∈ rules by simp [rules]) h (by rw [h]; decide)]
        exact float_digits hrest hstop hc
      · rw [rule_of_kind hr (show (Kind.imag, imag) ∈ rules by simp [rules]) h (by rw [h]; decide)]
        exact imag_digits hrest hstop hc
    rw [hzero]
    exact Nat.succ_pos _

/-! Strings -/

theorem string_of_starts (hc : c = '"' ∨ c = '\'') (h : k.starts c = true) : k = .string ∨ k = .openString := by
  cases k with
  | string => exact .inl rfl
  | openString => exact .inr rfl
  | symbol s =>
    have h := of_decide_eq_true h
    rcases hc with rfl | rfl <;> cases s <;> cases h
  | _ => rcases hc with rfl | rfl <;> cases h

variable {q : Char}

/-- A plain character is written as it is, or as a backslash and a sign for it. -/
theorem escapeChar_cases (hq : q = '"' ∨ q = '\'') (hc : Surface.isPlain c = true) :
    (Text.escapeChar q c = [c] ∧ c ≠ '\\' ∧ c ≠ '\n' ∧ c ≠ q) ∨
      ∃ d, Text.escapeChar q c = ['\\', d] ∧ d ≠ '\n' ∧ Text.escapeValue? d = some c := by
  by_cases hback : c = '\\'
  · exact .inr ⟨'\\', if_pos hback, by decide, by rw [hback]; rfl⟩
  by_cases hline : c = '\n'
  · exact .inr ⟨'n', by rw [hline]; rfl, by decide, by rw [hline]; rfl⟩
  by_cases htab : c = '\t'
  · exact .inr ⟨'t', by rw [htab]; rfl, by decide, by rw [htab]; rfl⟩
  by_cases hreturn : c = '\r'
  · exact .inr ⟨'r', by rw [hreturn]; rfl, by decide, by rw [hreturn]; rfl⟩
  by_cases hquote : c = q
  · subst hquote
    rcases hq with rfl | rfl
    · exact .inr ⟨'"', rfl, by decide, rfl⟩
    · exact .inr ⟨'\'', rfl, by decide, rfl⟩
  have hprinted : ¬(c.toNat < 32 ∨ c.toNat = 127) := by
    simp only [Surface.isPlain, hline, htab, hreturn, decide_false, Bool.false_or, Bool.and_eq_true,
      decide_eq_true_eq] at hc
    omega
  have hself : Text.escapeChar q c = [c] := by
    simp only [Text.escapeChar, hback, hline, htab, hreturn, hquote, hprinted, if_false]
  exact .inl ⟨hself, hback, hline, hquote⟩

/-- Any other character is written by its number. -/
theorem escapeChar_control (hq : q = '"' ∨ q = '\'') (hc : Surface.isPlain c = false) :
    Text.escapeChar q c = '\\' :: 'x' :: Text.hex2 c.toNat := by
  have hplain : ∀ d, Surface.isPlain d = true → c ≠ d := fun d hd hcd => by rw [hcd, hd] at hc; cases hc
  have hquote : c ≠ q := hplain q (by rcases hq with rfl | rfl <;> rfl)
  have hcontrol : c.toNat < 32 ∨ c.toNat = 127 := by
    simp only [Surface.isPlain, Bool.or_eq_false_iff, Bool.and_eq_false_iff, decide_eq_false_iff_not] at hc
    omega
  simp only [Text.escapeChar, hplain '\\' rfl, hplain '\n' rfl, hplain '\t' rfl, hplain '\r' rfl, hquote, hcontrol, if_true,
    if_false]

theorem hexDigit_ne (n : Nat) : ∀ d ∈ Text.hex2 n, d ≠ '\\' ∧ d ≠ '\n' ∧ d ≠ '"' ∧ d ≠ '\'' := by
  have hdigit : ∀ k < 16, Nat.digitChar k ≠ '\\' ∧ Nat.digitChar k ≠ '\n' ∧ Nat.digitChar k ≠ '"' ∧ Nat.digitChar k ≠ '\'' := by
    decide
  intro d hd
  rcases List.mem_pair.mp hd with rfl | rfl
  · exact hdigit _ (Nat.mod_lt _ (by decide))
  · exact hdigit _ (Nat.mod_lt _ (by decide))

theorem stringBody_plain (hback : c ≠ '\\') (hquote : c ≠ q) (hline : c ≠ '\n') :
    stringBody q (c :: cs) = 1 + stringBody q cs := by
  rw [stringBody]
  · simp only [hquote, hline, or_self, if_false]
  · exact fun _ _ h => absurd h hback
  · exact fun h => absurd h hback

/-- An escaped character neither ends a string nor leaves anything open. -/
theorem stringBody_escapeChar (hq : q = '"' ∨ q = '\'') (c : Char) :
    stringBody q (Text.escapeChar q c ++ cs) = (Text.escapeChar q c).length + stringBody q cs := by
  cases hc : Surface.isPlain c with
  | true =>
    rcases escapeChar_cases hq hc with ⟨h, hback, hline, hquote⟩ | ⟨d, h, hline, -⟩
    · rw [h, List.singleton_append, List.length_singleton, stringBody_plain hback hquote hline]
    · rw [h]
      simp only [List.cons_append, List.nil_append, stringBody, hline, if_false]
      rfl
  | false =>
    have hdigits : ∀ d ∈ Text.hex2 c.toNat, d ≠ '\\' ∧ d ≠ q ∧ d ≠ '\n' := by
      intro d hd
      obtain ⟨hback, hline, hdouble, hsingle⟩ := hexDigit_ne _ d hd
      exact ⟨hback, by rcases hq with rfl | rfl <;> assumption, hline⟩
    simp only [Text.hex2, List.forall_mem_cons] at hdigits
    obtain ⟨⟨hb₁, hq₁, hl₁⟩, ⟨hb₂, hq₂, hl₂⟩, -⟩ := hdigits
    rw [escapeChar_control hq hc]
    simp only [Text.hex2, List.cons_append, List.nil_append, List.length_cons, List.length_nil]
    rw [stringBody, if_neg (by decide), stringBody_plain hb₁ hq₁ hl₁, stringBody_plain hb₂ hq₂ hl₂]
    omega

/-- Reading an escaped character gives it back. -/
theorem unescape_escapeChar (hq : q = '"' ∨ q = '\'') (hc : Surface.isPlain c = true) :
    Text.unescape (Text.escapeChar q c ++ cs) = c :: Text.unescape cs := by
  rcases escapeChar_cases hq hc with ⟨h, hback, -, -⟩ | ⟨d, h, -, hvalue⟩
  · rw [h, List.singleton_append, Text.unescape]
    · exact fun h => absurd h hback
    · exact fun _ _ h => absurd h hback
  · rw [h]
    simp only [List.cons_append, List.nil_append, Text.unescape, hvalue]

theorem unescape_escaped (hq : q = '"' ∨ q = '\'') {text : List Char} (ht : text.all Surface.isPlain = true) :
    Text.unescape (text.flatMap (Text.escapeChar q)) = text := by
  induction text with
  | nil => rfl
  | cons c text ih =>
    simp only [List.all_cons, Bool.and_eq_true] at ht
    rw [List.flatMap_cons, unescape_escapeChar hq ht.1, ih ht.2]

theorem stringBody_escaped (hq : q = '"' ∨ q = '\'') (text : List Char) :
    stringBody q (text.flatMap (Text.escapeChar q) ++ q :: cs) = (text.flatMap (Text.escapeChar q)).length := by
  induction text with
  | nil =>
    rcases hq with rfl | rfl
    · rfl
    · rfl
  | cons c text ih => rw [List.flatMap_cons, List.append_assoc, stringBody_escapeChar hq c, ih, List.length_append]

theorem longest_quoted (hq : q = '"' ∨ q = '\'') {body : List Char} (hbody : stringBody q (body ++ q :: cs) = body.length) :
    longest (q :: (body ++ q :: cs)) = (.string, body.length + 2) := by
  have hopen : openString (q :: (body ++ q :: cs)) = body.length + 1 := by
    simp only [openString, hq, if_true, hbody]
    omega
  have hstring : string (q :: (body ++ q :: cs)) = body.length + 2 := by
    have hdrop : (q :: (body ++ q :: cs)).drop (body.length + 1) = q :: cs := by
      rw [List.drop_succ_cons, List.drop_left]
    simp only [string, hopen, hdrop]
    simp
  refine longest_eq_of_starts (by simp [rules]) (by decide) hstring (Nat.succ_pos _) ?_
  intro r hr hk hs
  rcases string_of_starts hq hs with h | h
  · exact absurd h hk
  · rw [rule_of_kind hr (show (Kind.openString, openString) ∈ rules by simp [rules]) h (by rw [h]; decide)]
    exact Nat.lt_of_le_of_lt (Nat.le_of_eq hopen) (Nat.lt_succ_self _)

/-! Signs -/

theorem symbol_of_starts {s : Symbol} (hc : s.text.toList.head? = some c) (h : k.starts c = true) :
    ∃ s', k = .symbol s' := by
  cases k with
  | symbol s' => exact ⟨s', rfl⟩
  | _ => cases s <;> obtain rfl := Option.some.inj hc <;> cases h

/-- The character makes a sign longer. -/
def grows (c : Char) : Bool := c = '*' || c = '/' || c = '='

theorem canGrow_of_text {s s' : Symbol} {a b : Char} (hs : s.text.toList = [a]) (hs' : s'.text.toList = [a, b]) :
    s.canGrow = true ∧ grows b = true := by
  have hall : ∀ s ∈ Symbol.all, ∀ s' ∈ Symbol.all, s'.text.toList.length = 2 → s.text.toList = s'.text.toList.take 1 →
      s.canGrow = true ∧ s'.text.toList[1]?.all grows = true := by decide
  have h := hall s s.mem_all s' s'.mem_all (by rw [hs']; rfl) (by rw [hs, hs']; rfl)
  rw [hs'] at h
  exact h

/-- Where a sign cannot grow, no other sign takes as much. -/
theorem symbol_lt {s s' : Symbol} (hne : s' ≠ s) (hstop : s.canGrow = true → ∀ c ∈ cs.head?, grows c = false) :
    symbol s' (s.text.toList ++ cs) < s.text.toList.length := by
  simp only [symbol]
  split
  · next hp =>
    rw [← String.length_toList]
    rcases s.text_cases with ⟨a, hs⟩ | ⟨a, b, hs⟩
    · rcases s'.text_cases with ⟨a', hs'⟩ | ⟨a', b', hs'⟩
      · simp only [hs, hs', List.cons_append, List.isPrefixOf_cons_cons, Bool.and_eq_true, beq_iff_eq] at hp
        exact absurd (Symbol.text_injective (by rw [hs, hs', hp.1])) hne
      · rw [hs, hs'] at hp
        cases cs with
        | nil => simp at hp
        | cons d cs =>
          simp only [List.cons_append, List.nil_append, List.isPrefixOf_cons_cons, Bool.and_eq_true, beq_iff_eq] at hp
          obtain ⟨rfl, rfl, -⟩ := hp
          obtain ⟨hgrow, hb⟩ := canGrow_of_text hs hs'
          rw [hstop hgrow _ rfl] at hb
          cases hb
    · rcases s'.text_cases with ⟨a', hs'⟩ | ⟨a', b', hs'⟩
      · rw [hs, hs']
        exact Nat.lt_succ_self _
      · simp only [hs, hs', List.cons_append, List.nil_append, List.isPrefixOf_cons_cons, Bool.and_eq_true,
          beq_iff_eq] at hp
        exact absurd (Symbol.text_injective (by rw [hs, hs', hp.1, hp.2.1])) hne
  · cases s <;> decide

theorem mem_rules_symbol (s : Symbol) : (Kind.symbol s, symbol s) ∈ rules :=
  List.mem_append_right _ (List.mem_map_of_mem s.mem_all)

theorem longest_symbol (s : Symbol) (hstop : s.canGrow = true → ∀ c ∈ cs.head?, grows c = false) :
    longest (s.text.toList ++ cs) = (.symbol s, s.text.toList.length) := by
  have hself : symbol s (s.text.toList ++ cs) = s.text.toList.length := by
    rw [symbol, if_pos (List.isPrefixOf_iff_prefix.mpr (List.prefix_append _ _)), String.length_toList]
  obtain ⟨c, text, ht⟩ : ∃ c text, s.text.toList = c :: text := by cases s <;> exact ⟨_, _, rfl⟩
  have hlt : ∀ s', s' ≠ s → symbol s' (s.text.toList ++ cs) < s.text.toList.length := fun s' hne => symbol_lt hne hstop
  rw [ht, List.cons_append] at hself hlt ⊢
  refine longest_eq_of_starts (mem_rules_symbol s) (by simp) hself (Nat.succ_pos _) ?_
  intro r hr hk hs
  obtain ⟨s', h⟩ := symbol_of_starts (by rw [ht]; rfl) hs
  rw [rule_of_kind hr (mem_rules_symbol s') h (by simp [h])]
  refine hlt s' ?_
  rintro rfl
  exact hk h

end Lexeme

end CseMachine

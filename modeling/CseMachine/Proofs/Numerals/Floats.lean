import CseMachine.Builtin.Call
import CseMachine.Proofs.Lexing.Kinds
import CseMachine.Proofs.Numerals

/-!
# Texts of doubles

`float` takes a text exactly if it spells a decimal numeral or the name of a special
double. Underscores are dropped before the numeral is looked at, so they may stand
between any two characters of it: next to the point, to an exponent and its sign, and
inside a name, as in `1_e5` and `in_f`. In a text that is taken they stand between two
digits exactly if none stands next to such a character.
-/
namespace CseMachine

namespace Text

variable {c : Char} {cs exponent mantissa written plain : List Char}

/-- Digits, among which a point may stand, or in front of or behind them. -/
inductive Mantissa : List Char → Prop
  | whole {digits : List Char} (h : Digits digits) : Mantissa digits
  | pointed {whole fraction : List Char} (nonempty : whole ≠ [] ∨ fraction ≠ []) (before : ∀ c ∈ whole, c.isDigit = true)
      (behind : ∀ c ∈ fraction, c.isDigit = true) : Mantissa (whole ++ '.' :: fraction)

/-- Nothing, or a mark, a sign or none, and digits. -/
inductive Exponent : List Char → Prop
  | none : Exponent []
  | power {mark : Char} {digits : List Char} (marks : mark = 'e' ∨ mark = 'E') (sign : Sign) (h : Digits digits) :
      Exponent (mark :: (sign.text ++ digits))

/-- The names of the special doubles. -/
def names : List (List Char) := ["inf".toList, "infinity".toList, "nan".toList]

/-- One of the names, in any case. -/
def IsName (cs : List Char) : Prop := cs.map Char.toLower ∈ names

/-- A double without sign, white space and underscores. -/
inductive FloatNumeral : List Char → Prop
  | name {cs : List Char} (h : IsName cs) : FloatNumeral cs
  | decimal {mantissa exponent : List Char} (hm : Mantissa mantissa) (he : Exponent exponent) :
      FloatNumeral (mantissa ++ exponent)

/-- A text of a double. -/
def FloatText (written : List Char) : Prop := ∃ sign plain, Spells sign plain written ∧ FloatNumeral plain

/-- What a numeral has besides digits: the point, signs and letters. -/
def isMark (c : Char) : Bool := c = '.' || isSign c || c.isAlpha

/-! Decimals -/

theorem Exponent.head? (h : Exponent cs) : ∀ c ∈ cs.head?, c.isDigit = false ∧ c ≠ '.' := by
  cases h with
  | none => exact nofun
  | power marks =>
    intro c hc
    cases hc
    rcases marks with rfl | rfl <;> decide

theorem isSome_readExponent? : (Decimal.readExponent? cs).isSome = true ↔ Exponent cs := by
  cases cs with
  | nil => exact ⟨fun _ => .none, fun _ => rfl⟩
  | cons mark rest =>
    have hread : Decimal.readExponent? (mark :: rest) = if mark = 'e' ∨ mark = 'E' then
        if (splitSign rest).2.isEmpty || !(splitSign rest).2.all Char.isDigit then none
        else some (Binary64.signed (splitSign rest).1 (Decimal.ofDigits (splitSign rest).2))
      else none := rfl
    rw [hread]
    constructor
    · intro h
      split at h
      · next marks =>
        generalize hsplit : splitSign rest = parts at h
        obtain ⟨negative, digits⟩ := parts
        obtain ⟨sign, rfl, -⟩ := exists_sign hsplit
        split at h
        · cases h
        · next hdigits => exact .power marks sign (digits_iff.mp (Bool.eq_false_iff.mpr hdigits))
      · cases h
    · generalize hcs : mark :: rest = written
      intro h
      cases h with
      | none => cases hcs
      | power marks sign hdigits =>
        cases hcs
        rw [if_pos marks, splitSign_text sign hdigits.unsigned, digits_iff.mpr hdigits]
        rfl

/-- The digits behind a point, if a point is next, and what is left behind them. -/
def behindPoint : List Char → List Char × List Char
  | '.' :: rest => (rest.takeWhile Char.isDigit, rest.dropWhile Char.isDigit)
  | rest => ([], rest)

theorem behindPoint_point (rest : List Char) :
    behindPoint ('.' :: rest) = (rest.takeWhile Char.isDigit, rest.dropWhile Char.isDigit) := rfl

theorem behindPoint_other (h : ∀ c ∈ cs.head?, c ≠ '.') : behindPoint cs = ([], cs) := by
  unfold behindPoint
  split
  · exact absurd rfl (h '.' rfl)
  · rfl

theorem read?_eq (cs : List Char) : Decimal.read? cs =
    let parts := behindPoint (cs.dropWhile Char.isDigit)
    if (cs.takeWhile Char.isDigit).isEmpty && parts.1.isEmpty then none
    else (Decimal.readExponent? parts.2).map fun x =>
      ⟨Decimal.ofDigits (cs.takeWhile Char.isDigit ++ parts.1), x - parts.1.length⟩ := rfl

theorem takeWhile_digits {digits : List Char} (hd : ∀ c ∈ digits, c.isDigit = true) (h : ∀ c ∈ cs.head?, c.isDigit = false) :
    (digits ++ cs).takeWhile Char.isDigit = digits := by
  rw [List.takeWhile_append_of_pos hd, takeWhile_of_head? h, List.append_nil]

theorem dropWhile_digits {digits : List Char} (hd : ∀ c ∈ digits, c.isDigit = true) (h : ∀ c ∈ cs.head?, c.isDigit = false) :
    (digits ++ cs).dropWhile Char.isDigit = cs := by
  rw [List.dropWhile_append_of_pos hd, dropWhile_of_head? h]

theorem not_both_empty {whole fraction : List Char} :
    ¬(whole.isEmpty && fraction.isEmpty) = true ↔ whole ≠ [] ∨ fraction ≠ [] := by
  cases whole <;> cases fraction <;> simp

theorem isSome_read? : (Decimal.read? cs).isSome = true ↔
    ∃ mantissa exponent, Mantissa mantissa ∧ Exponent exponent ∧ cs = mantissa ++ exponent := by
  have hall : ∀ xs : List Char, ∀ c ∈ xs.takeWhile Char.isDigit, c.isDigit = true := fun xs =>
    List.all_eq_true.mp List.all_takeWhile
  rw [read?_eq]
  constructor
  · intro h
    have hcs := (List.takeWhile_append_dropWhile (p := Char.isDigit) (l := cs)).symm
    have hwhole := hall cs
    generalize cs.takeWhile Char.isDigit = whole at *
    generalize cs.dropWhile Char.isDigit = rest at *
    dsimp only at h
    by_cases hpoint : ∃ r, rest = '.' :: r
    · obtain ⟨r, rfl⟩ := hpoint
      rw [behindPoint_point] at h
      split at h
      · cases h
      · next hsome =>
        rw [Option.isSome_map] at h
        refine ⟨whole ++ '.' :: r.takeWhile Char.isDigit, r.dropWhile Char.isDigit,
          .pointed (not_both_empty.mp hsome) hwhole (hall r), isSome_readExponent?.mp h, ?_⟩
        rw [hcs, List.append_assoc, List.cons_append, List.takeWhile_append_dropWhile]
    · have hother : ∀ c ∈ rest.head?, c ≠ '.' := by
        rintro c hc rfl
        exact hpoint (List.head?_eq_some_iff.mp hc)
      rw [behindPoint_other hother] at h
      split at h
      · cases h
      · next hsome =>
        rw [Option.isSome_map] at h
        have hne := (not_both_empty.mp hsome).resolve_right fun hnil => hnil rfl
        exact ⟨whole, rest, .whole ⟨hne, hwhole⟩, isSome_readExponent?.mp h, hcs⟩
  · rintro ⟨mantissa, exponent, hm, he, rfl⟩
    have hdigit : ∀ c ∈ exponent.head?, c.isDigit = false := fun c hc => (he.head? c hc).1
    cases hm with
    | whole hd =>
      rw [takeWhile_digits hd.all hdigit, dropWhile_digits hd.all hdigit, behindPoint_other fun c hc => (he.head? c hc).2]
      dsimp only
      rw [if_neg (not_both_empty.mpr (.inl hd.nonempty)), Option.isSome_map]
      exact isSome_readExponent?.mpr he
    | @pointed whole fraction nonempty before behind =>
      have hpoint : ∀ c ∈ ('.' :: (fraction ++ exponent)).head?, c.isDigit = false := by
        rintro c ⟨⟩
        rfl
      rw [List.append_assoc, List.cons_append, takeWhile_digits before hpoint, dropWhile_digits before hpoint,
        behindPoint_point, takeWhile_digits behind hdigit, dropWhile_digits behind hdigit]
      dsimp only
      rw [if_neg (not_both_empty.mpr nonempty), Option.isSome_map]
      exact isSome_readExponent?.mpr he

/-! Characters of numerals -/

theorem isAlpha_of_toLower (h : c.toLower.isAlpha = true) : c.isAlpha = true := by
  unfold Char.toLower at h
  split at h
  · next hupper =>
    have hu : c.isUpper = true := decide_eq_true hupper
    show (c.isUpper || c.isLower) = true
    rw [hu, Bool.true_or]
  · exact h

theorem IsName.isAlpha (h : IsName cs) : ∀ c ∈ cs, c.isAlpha = true := by
  have hnames : names.all (·.all Char.isAlpha) = true := by decide
  intro c hc
  have hname := List.all_eq_true.mp hnames _ h
  exact isAlpha_of_toLower (List.all_eq_true.mp hname _ (List.mem_map_of_mem hc))

theorem Mantissa.ne_nil (h : Mantissa cs) : cs ≠ [] := by
  cases h with
  | whole h => exact h.nonempty
  | pointed => exact List.append_ne_nil_of_right_ne_nil _ (List.cons_ne_nil _ _)

theorem Mantissa.chars (h : Mantissa cs) : ∀ c ∈ cs, c.isDigit = true ∨ c = '.' := by
  intro c hc
  cases h with
  | whole h => exact .inl (h.all c hc)
  | pointed _ before behind =>
    rcases List.mem_append.mp hc with hc | hc
    · exact .inl (before c hc)
    · rcases List.mem_cons.mp hc with rfl | hc
      · exact .inr rfl
      · exact .inl (behind c hc)

theorem Exponent.chars (h : Exponent cs) : ∀ c ∈ cs, c.isDigit = true ∨ isMark c = true := by
  intro c hc
  cases h with
  | none => cases hc
  | power marks sign h =>
    rcases List.mem_cons.mp hc with rfl | hc
    · rcases marks with rfl | rfl
      · exact .inr rfl
      · exact .inr rfl
    · rcases List.mem_append.mp hc with hc | hc
      · refine .inr ?_
        rw [isMark, Sign.isSign_of_mem hc, Bool.or_true, Bool.true_or]
      · exact .inl (h.all c hc)

/-- A numeral is made of digits and marks. -/
theorem FloatNumeral.chars (h : FloatNumeral cs) : ∀ c ∈ cs, c.isDigit = true ∨ isMark c = true := by
  intro c hc
  cases h with
  | name h =>
    refine .inr ?_
    rw [isMark, h.isAlpha c hc, Bool.or_true]
  | decimal hm he =>
    rcases List.mem_append.mp hc with hc | hc
    · rcases hm.chars c hc with hd | rfl
      · exact .inl hd
      · exact .inr rfl
    · exact he.chars c hc

theorem isBlank_of_isMark (h : isMark c = true) : isBlank c = false := by
  simp only [isMark, Bool.or_eq_true, decide_eq_true_eq] at h
  rcases h with (rfl | h) | h
  · rfl
  · exact isBlank_of_isSign h
  · have hrange := Lexeme.isAlpha_iff.mp h
    simp only [isBlank, Bool.or_eq_false_iff, Bool.and_eq_false_iff, decide_eq_false_iff_not]
    omega

theorem not_isMark_of_isDigit (h : c.isDigit = true) : isMark c = false := by
  have hrange := Lexeme.isDigit_iff.mp h
  have halpha : c.isAlpha = false := by
    refine Bool.eq_false_iff.mpr fun ha => ?_
    have := Lexeme.isAlpha_iff.mp ha
    omega
  have hpoint : c ≠ '.' := by
    rintro rfl
    cases h
  rw [isMark, decide_eq_false hpoint, isSign_of_isDigit h, halpha]
  rfl

theorem isSign_of_isAlpha (h : c.isAlpha = true) : isSign c = false := isSign_of_holds rfl rfl h

theorem FloatNumeral.bare (h : FloatNumeral plain) : Bare plain where
  nonempty := by
    cases h with
    | name h =>
      rintro rfl
      exact absurd h (show [] ∉ names by decide)
    | decimal hm => exact List.append_ne_nil_of_left_ne_nil hm.ne_nil _
  solid c hc := by
    rcases h.chars c hc with hd | hm
    · exact isBlank_of_isDigit hd
    · exact isBlank_of_isMark hm
  unsigned c hc := by
    cases h with
    | name h => exact isSign_of_isAlpha (h.isAlpha c (List.mem_of_head? hc))
    | decimal hm =>
      obtain ⟨first, rest, rfl⟩ := List.exists_cons_of_ne_nil hm.ne_nil
      obtain rfl := Option.some.inj hc
      rcases hm.chars _ (.head _) with hd | rfl
      · exact isSign_of_isDigit hd
      · rfl

/-! Reading -/

theorem ofList_eq_iff {name : String} : String.ofList cs = name ↔ cs = name.toList := by
  constructor
  · rintro rfl
    rw [String.toList_ofList]
  · rintro rfl
    rw [String.ofList_toList]

theorem isSome_specialFloat? {negative : Bool} : (specialFloat? negative cs).isSome = true ↔ IsName cs := by
  have hnames : IsName cs ↔ (cs.map Char.toLower = "inf".toList ∨ cs.map Char.toLower = "infinity".toList) ∨
      cs.map Char.toLower = "nan".toList := by
    simp only [IsName, names, List.mem_cons, List.not_mem_nil, or_false, or_assoc]
  rw [hnames]
  simp only [specialFloat?, ofList_eq_iff, Bool.or_eq_true, decide_eq_true_eq]
  split
  · next h => exact ⟨fun _ => .inl h, fun _ => rfl⟩
  · next h =>
    split
    · next hn => exact ⟨fun _ => .inr hn, fun _ => rfl⟩
    · next hn => exact ⟨nofun, fun h' => (h'.elim h hn).elim⟩

/-- Behind the sign a numeral is read and nothing else. -/
theorem isSome_unsigned (negative : Bool) (plain : List Char) :
    (specialFloat? negative plain <|> (Decimal.read? plain).map (Decimal.toFloat negative)).isSome = true ↔ FloatNumeral plain := by
  have hor : (specialFloat? negative plain <|> (Decimal.read? plain).map (Decimal.toFloat negative)).isSome = true ↔
      (specialFloat? negative plain).isSome = true ∨ (Decimal.read? plain).isSome = true := by
    cases specialFloat? negative plain <;> cases Decimal.read? plain <;> simp
  rw [hor, isSome_specialFloat?, isSome_read?]
  constructor
  · rintro (h | ⟨mantissa, exponent, hm, he, rfl⟩)
    · exact .name h
    · exact .decimal hm he
  · intro h
    cases h with
    | name h => exact .inl h
    | decimal hm he => exact .inr ⟨_, _, hm, he, rfl⟩

theorem isSome_toFloat? {text : String} : (toFloat? text).isSome = true ↔ FloatText text.toList := by
  constructor
  · intro h
    obtain ⟨x, hx⟩ := Option.isSome_iff_exists.mp h
    simp only [toFloat?, Option.bind_eq_bind, Option.bind_eq_some_iff] at hx
    obtain ⟨cs, hdrop, hread⟩ := hx
    generalize hsplit : splitSign cs = parts at hread
    obtain ⟨negative, plain⟩ := parts
    have hn := (isSome_unsigned negative plain).mp (Option.isSome_of_mem hread)
    obtain ⟨sign, -, hs⟩ := spells_of_reads hn.bare hdrop hsplit
    exact ⟨sign, plain, hs, hn⟩
  · rintro ⟨sign, plain, hs, hn⟩
    simp only [toFloat?, hs.reads hn.bare, Option.bind_eq_bind, Option.bind_some, splitSign_text sign hn.bare.unsigned]
    exact (isSome_unsigned sign.isMinus plain).mpr hn

/-- In a text of a double every underscore stands between digits and marks. -/
theorem FloatText.between (h : FloatText written) : Between '_' (fun c => c.isDigit = true ∨ isMark c = true) written := by
  obtain ⟨sign, plain, ⟨body, hframed, hbetween, rfl⟩, hn⟩ := h
  refine hframed.surround (hbetween.mono fun c hc hu => ?_)
  exact hn.chars c (List.mem_filter.mpr ⟨hc, decide_eq_true hu⟩)

/-- So it stands between two digits unless it stands next to a mark. -/
theorem FloatText.between_digits_iff (h : FloatText written) :
    Between '_' (·.isDigit = true) written ↔ Between '_' (isMark · = false) written := by
  constructor
  · exact fun hd => hd.mono fun c _ hc => not_isMark_of_isDigit hc
  · intro hm
    refine (h.between.and hm).mono fun c _ hc => ?_
    rcases hc with ⟨hd | hmark, hnot⟩
    · exact hd
    · cases hmark.symm.trans hnot

end Text

namespace Builtin

open Text (Between FloatText isMark)

variable {store : Store} {s : String}

theorem call_float_read (h : FloatText s.toList) : ∃ x, call store .float [.str s] = .ok (.float x) := by
  obtain ⟨x, hx⟩ := Option.isSome_iff_exists.mp (Text.isSome_toFloat?.mpr h)
  refine ⟨x, ?_⟩
  show Value.float <$> toFloat (.str s) = _
  simp only [toFloat, hx]
  rfl

theorem call_float_unread (h : ¬FloatText s.toList) :
    call store .float [.str s] = fail (.badValue (.floatLiteral s)) := by
  have hnone := Option.not_isSome_iff_eq_none.mp (mt Text.isSome_toFloat?.mp h)
  show Value.float <$> toFloat (.str s) = _
  simp only [toFloat, hnone]
  rfl

/-- `float` takes the texts of doubles and no others. In such a text every underscore stands between
two digits exactly if none stands next to a point, a sign or a letter. -/
theorem float_reads (store : Store) (s : String) :
    ((∃ x, call store .float [.str s] = .ok (.float x)) ↔ FloatText s.toList) ∧
    (¬FloatText s.toList → call store .float [.str s] = fail (.badValue (.floatLiteral s))) ∧
    (FloatText s.toList → (Between '_' (·.isDigit = true) s.toList ↔ Between '_' (isMark · = false) s.toList)) := by
  refine ⟨⟨?_, call_float_read⟩, call_float_unread, FloatText.between_digits_iff⟩
  rintro ⟨x, hx⟩
  by_contra hnot
  rw [call_float_unread hnot] at hx
  cases hx

/-- An underscore in front of an exponent. -/
theorem float_reads_misplaced :
    (∃ x, call .empty .float [.str "1_e5"] = .ok (.float x)) ∧ ¬Between '_' (·.isDigit = true) "1_e5".toList := by
  obtain ⟨htaken, -, hplaced⟩ := float_reads .empty "1_e5"
  have hdigits : ∀ d : Char, d.isDigit = true → Text.Digits [d] := by
    intro d hd
    exact ⟨List.cons_ne_nil _ _, fun c hc => List.mem_singleton.mp hc ▸ hd⟩
  have htext : FloatText "1_e5".toList := by
    refine ⟨.absent, ['1'] ++ ['e', '5'], ⟨"1_e5".toList, ⟨[], [], nofun, nofun, rfl⟩, ?_, rfl⟩, ?_⟩
    · exact Text.between_underscore_iff.mpr (by decide)
    · exact .decimal (.whole (hdigits '1' rfl)) (.power (.inl rfl) .absent (hdigits '5' rfl))
  refine ⟨htaken.mpr htext, fun h => ?_⟩
  obtain ⟨-, c, hc, hmark⟩ := (hplaced htext).mp h ['1'] ['e', '5'] rfl
  cases hc
  cases hmark

end Builtin
end CseMachine

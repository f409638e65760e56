import CseMachine.Text.Numeral

/-!
# Numerals in texts

Before a text is read as a number its white space is trimmed, its underscores go, and a
sign is taken off. What is then left to read is a numeral exactly if the text spells it:
with white space around it, a sign or none in front of it, and underscores inside it, each
of them directly between two other characters.
-/
namespace CseMachine.Text

variable {c x : Char} {P Q : Char → Prop} {p : Char → Bool} {cs front back core plain written : List Char} {negative : Bool}

/-! Neighbours -/

/-- Wherever the character stands, it stands directly between two characters with the property. -/
def Between (x : Char) (P : Char → Prop) (cs : List Char) : Prop :=
  ∀ before after, cs = before ++ x :: after → (∃ c ∈ before.getLast?, P c) ∧ ∃ c ∈ after.head?, P c

namespace Between

theorem mono (h : Between x P cs) (hpq : ∀ c ∈ cs, P c → Q c) : Between x Q cs := by
  intro before after hcs
  obtain ⟨⟨a, ha, hpa⟩, b, hb, hpb⟩ := h before after hcs
  have hbefore : ∀ c ∈ before, c ∈ cs := fun c hc => hcs ▸ List.mem_append_left _ hc
  have hafter : ∀ c ∈ after, c ∈ cs := fun c hc => hcs ▸ List.mem_append_right _ (.tail _ hc)
  exact ⟨⟨a, ha, hpq a (hbefore a (List.mem_of_getLast? ha)) hpa⟩, b, hb, hpq b (hafter b (List.mem_of_head? hb)) hpb⟩

theorem and (hp : Between x P cs) (hq : Between x Q cs) : Between x (fun c => P c ∧ Q c) cs := by
  intro before after hcs
  obtain ⟨⟨a, ha, hpa⟩, b, hb, hpb⟩ := hp before after hcs
  obtain ⟨⟨a', ha', hqa⟩, b', hb', hqb⟩ := hq before after hcs
  obtain rfl := Option.some.inj (ha.symm.trans ha')
  obtain rfl := Option.some.inj (hb.symm.trans hb')
  exact ⟨⟨a, ha, hpa, hqa⟩, b, hb, hpb, hqb⟩

theorem reverse (h : Between x P cs) : Between x P cs.reverse := by
  intro before after hcs
  have hcs' : cs = after.reverse ++ x :: before.reverse := by
    rw [← cs.reverse_reverse, hcs]
    simp
  obtain ⟨hlast, hhead⟩ := h _ _ hcs'
  rw [List.getLast?_reverse] at hlast
  rw [List.head?_reverse] at hhead
  exact ⟨hhead, hlast⟩

/-- What stands in front has no say if the character is not in it. -/
theorem append_left (h : Between x P cs) (hf : x ∉ front) : Between x P (front ++ cs) := by
  induction front with
  | nil => exact h
  | cons c front ih =>
    obtain ⟨hc, hfront⟩ := not_or.mp (mt List.mem_cons.mpr hf)
    intro before after hcs
    cases before with
    | nil => exact absurd (List.cons.inj hcs).1.symm hc
    | cons d before =>
      obtain ⟨⟨a, ha, hpa⟩, hhead⟩ := ih hfront before after (List.cons.inj hcs).2
      refine ⟨⟨a, ?_, hpa⟩, hhead⟩
      obtain ⟨init, rfl⟩ := List.getLast?_eq_some_iff.mp ha
      show (d :: init ++ [a]).getLast? = some a
      exact List.getLast?_concat

theorem append_right (h : Between x P cs) (hb : x ∉ back) : Between x P (cs ++ back) := by
  have hr := (h.reverse.append_left (mt List.mem_reverse.mp hb)).reverse
  rwa [List.reverse_append, List.reverse_reverse, List.reverse_reverse] at hr

end Between

theorem hasDoubleUnderscore_iff : hasDoubleUnderscore cs = true ↔ ∃ before after, cs = before ++ '_' :: '_' :: after := by
  constructor
  · intro h
    fun_induction hasDoubleUnderscore cs with
    | case1 rest => exact ⟨[], rest, rfl⟩
    | case2 c rest _ ih =>
      obtain ⟨before, after, hrest⟩ := ih h
      exact ⟨c :: before, after, by rw [hrest]; rfl⟩
    | case3 => cases h
  · rintro ⟨before, after, rfl⟩
    induction before with
    | nil => rfl
    | cons c before ih =>
      show hasDoubleUnderscore (c :: (before ++ '_' :: '_' :: after)) = true
      unfold hasDoubleUnderscore
      split
      · rfl
      · next he =>
        cases he
        exact ih
      · next he => cases he

/-- No underscore is first, last or next to another one. -/
theorem between_underscore_iff : Between '_' (· ≠ '_') cs ↔
    cs.head? ≠ some '_' ∧ cs.getLast? ≠ some '_' ∧ hasDoubleUnderscore cs = false := by
  constructor
  · intro h
    refine ⟨fun hhead => ?_, fun hlast => ?_, Bool.eq_false_iff.mpr fun hdouble => ?_⟩
    · obtain ⟨rest, rfl⟩ := List.head?_eq_some_iff.mp hhead
      obtain ⟨⟨a, ha, -⟩, -⟩ := h [] rest rfl
      cases ha
    · obtain ⟨init, rfl⟩ := List.getLast?_eq_some_iff.mp hlast
      obtain ⟨-, b, hb, -⟩ := h init [] rfl
      cases hb
    · obtain ⟨before, after, rfl⟩ := hasDoubleUnderscore_iff.mp hdouble
      obtain ⟨-, b, hb, hne⟩ := h before ('_' :: after) rfl
      exact hne (Option.some.inj hb).symm
  · rintro ⟨hhead, hlast, hdouble⟩ before after rfl
    have hsingle : ∀ xs ys, before ++ '_' :: after ≠ xs ++ '_' :: '_' :: ys := fun xs ys he =>
      Bool.eq_false_iff.mp hdouble (hasDoubleUnderscore_iff.mpr ⟨xs, ys, he⟩)
    constructor
    · cases hb : before.getLast? with
      | none =>
        rw [List.getLast?_eq_none_iff.mp hb] at hhead
        exact absurd rfl hhead
      | some a =>
        refine ⟨a, rfl, ?_⟩
        rintro rfl
        obtain ⟨init, rfl⟩ := List.getLast?_eq_some_iff.mp hb
        exact hsingle init after (by simp)
    · cases after with
      | nil => exact absurd List.getLast?_concat hlast
      | cons b after =>
        refine ⟨b, rfl, ?_⟩
        rintro rfl
        exact hsingle before after rfl

/-! White space and signs -/

theorem takeWhile_of_head? (h : ∀ c ∈ cs.head?, p c = false) : cs.takeWhile p = [] := by
  cases cs with
  | nil => rfl
  | cons c rest => simp [h c rfl]

theorem dropWhile_of_head? (h : ∀ c ∈ cs.head?, p c = false) : cs.dropWhile p = cs := by
  cases cs with
  | nil => rfl
  | cons c rest => simp [h c rfl]

theorem exists_trim (cs : List Char) : ∃ before after, (∀ c ∈ before, isBlank c = true) ∧
    (∀ c ∈ after, isBlank c = true) ∧ cs = before ++ trim cs ++ after := by
  have hall : ∀ xs : List Char, ∀ c ∈ xs.takeWhile isBlank, isBlank c = true := fun xs =>
    List.all_eq_true.mp List.all_takeWhile
  refine ⟨cs.takeWhile isBlank, ((cs.dropWhile isBlank).reverse.takeWhile isBlank).reverse, hall cs, ?_, ?_⟩
  · exact fun c hc => hall _ c (List.mem_reverse.mp hc)
  · rw [trim, List.append_assoc, ← List.reverse_append, List.takeWhile_append_dropWhile, List.reverse_reverse,
      List.takeWhile_append_dropWhile]

theorem trim_surrounded (hf : ∀ c ∈ front, isBlank c = true) (hb : ∀ c ∈ back, isBlank c = true) (hne : core ≠ [])
    (hhead : ∀ c ∈ core.head?, isBlank c = false) (hlast : ∀ c ∈ core.getLast?, isBlank c = false) :
    trim (front ++ core ++ back) = core := by
  have hfirst : (core ++ back).dropWhile isBlank = core ++ back := by
    obtain ⟨first, rest, rfl⟩ := List.exists_cons_of_ne_nil hne
    exact dropWhile_of_head? fun c hc => hhead c hc
  have hsecond : core.reverse.dropWhile isBlank = core.reverse := by
    refine dropWhile_of_head? fun c hc => hlast c ?_
    rwa [List.head?_reverse] at hc
  rw [trim, List.append_assoc, List.dropWhile_append_of_pos hf, hfirst, List.reverse_append,
    List.dropWhile_append_of_pos (fun c hc => hb c (List.mem_reverse.mp hc)), hsecond, List.reverse_reverse]

/-- What may stand in front of a numeral. -/
inductive Sign where
  | absent | plus | minus
  deriving DecidableEq, Repr

namespace Sign

def text : Sign → List Char
  | absent => []
  | plus => ['+']
  | minus => ['-']

def isMinus : Sign → Bool
  | minus => true
  | _ => false

theorem isSign_of_mem {sign : Sign} (h : c ∈ sign.text) : isSign c = true := by
  cases sign with
  | absent => cases h
  | plus => cases List.mem_singleton.mp h; rfl
  | minus => cases List.mem_singleton.mp h; rfl

end Sign

theorem isBlank_of_isSign (h : isSign c = true) : isBlank c = false := by
  simp only [isSign, Bool.or_eq_true, decide_eq_true_eq] at h
  rcases h with rfl | rfl <;> rfl

theorem ne_underscore_of_isSign (h : isSign c = true) : c ≠ '_' := by
  rintro rfl
  cases h

theorem ne_underscore_of_isBlank (h : isBlank c = true) : c ≠ '_' := by
  rintro rfl
  cases h

theorem splitSign_text (sign : Sign) (h : ∀ c ∈ cs.head?, isSign c = false) :
    splitSign (sign.text ++ cs) = (sign.isMinus, cs) := by
  cases sign with
  | absent =>
    cases cs with
    | nil => rfl
    | cons c rest =>
      have hc := h c rfl
      simp only [isSign, Bool.or_eq_false_iff, decide_eq_false_iff_not] at hc
      show splitSign (c :: rest) = _
      unfold splitSign
      split
      · next he => cases he; exact absurd rfl hc.2
      · next he => cases he; exact absurd rfl hc.1
      · rfl
  | plus => rfl
  | minus => rfl

theorem exists_sign (h : splitSign written = (negative, cs)) : ∃ sign : Sign, written = sign.text ++ cs ∧ sign.isMinus = negative := by
  unfold splitSign at h
  split at h
  · cases h
    exact ⟨.minus, rfl, rfl⟩
  · cases h
    exact ⟨.plus, rfl, rfl⟩
  · cases h
    exact ⟨.absent, rfl, rfl⟩

/-! What a text spells -/

/-- A text is white space, a sign or none, a body, and white space again. -/
def Framed (sign : Sign) (body written : List Char) : Prop :=
  ∃ before after, (∀ c ∈ before, isBlank c = true) ∧ (∀ c ∈ after, isBlank c = true) ∧
    written = before ++ (sign.text ++ body) ++ after

/-- A text spells a numeral with this sign: in it are underscores, each directly between two other characters. -/
def Spells (sign : Sign) (plain written : List Char) : Prop :=
  ∃ body, Framed sign body written ∧ Between '_' (· ≠ '_') body ∧ body.filter (· ≠ '_') = plain

theorem Framed.surround {sign : Sign} (h : Framed sign core written) (hc : Between '_' P core) : Between '_' P written := by
  obtain ⟨before, after, hb, ha, rfl⟩ := h
  refine ((hc.append_left fun hm => ?_).append_left fun hm => ?_).append_right fun hm => ?_
  · exact ne_underscore_of_isSign (Sign.isSign_of_mem hm) rfl
  · exact ne_underscore_of_isBlank (hb _ hm) rfl
  · exact ne_underscore_of_isBlank (ha _ hm) rfl

/-- All that is known of a numeral before it is read: it is not empty, no white space is in it and no sign in front. -/
structure Bare (plain : List Char) : Prop where
  nonempty : plain ≠ []
  solid : ∀ c ∈ plain, isBlank c = false
  unsigned : ∀ c ∈ plain.head?, isSign c = false

theorem head?_filter_underscore (h : cs.head? ≠ some '_') : (cs.filter (· ≠ '_')).head? = cs.head? := by
  cases cs with
  | nil => rfl
  | cons c rest =>
    have hc : c ≠ '_' := fun he => h (congrArg some he)
    simp [hc]

theorem filter_signs (h : ∀ c ∈ cs, isSign c = true) : cs.filter (· ≠ '_') = cs :=
  List.filter_eq_self.mpr fun c hc => decide_eq_true (ne_underscore_of_isSign (h c hc))

theorem dropUnderscores?_eq_some : dropUnderscores? written = some cs ↔
    Between '_' (· ≠ '_') (written.dropWhile isSign) ∧ written.filter (· ≠ '_') = cs := by
  rw [between_underscore_iff]
  simp only [dropUnderscores?]
  split
  · next h =>
    simp only [Bool.or_eq_true, decide_eq_true_eq] at h
    constructor
    · rintro ⟨⟩
    · rintro ⟨⟨hhead, hlast, hdouble⟩, -⟩
      rcases h with (h | h) | h
      · exact absurd h hhead
      · exact absurd h hlast
      · exact absurd h (Bool.eq_false_iff.mp hdouble)
  · next h =>
    simp only [Bool.or_eq_true, decide_eq_true_eq, not_or, Bool.not_eq_true] at h
    obtain ⟨⟨hhead, hlast⟩, hdouble⟩ := h
    constructor
    · intro he
      exact ⟨⟨hhead, hlast, hdouble⟩, Option.some.inj he⟩
    · rintro ⟨-, rfl⟩
      rfl

/-- Underscores are dropped from behind the signs. -/
theorem filter_underscores (cs : List Char) :
    cs.filter (· ≠ '_') = cs.takeWhile isSign ++ (cs.dropWhile isSign).filter (· ≠ '_') := by
  have h := congrArg (List.filter (· ≠ '_')) (List.takeWhile_append_dropWhile (p := isSign) (l := cs))
  rw [List.filter_append, filter_signs (List.all_eq_true.mp List.all_takeWhile)] at h
  exact h.symm

/-- Signs in front of what has none in front can be told from it. -/
theorem signs_unique {signs : List Char} (hf : ∀ c ∈ front, isSign c = true) (hs : ∀ c ∈ signs, isSign c = true)
    (hcs : ∀ c ∈ cs.head?, isSign c = false) (hp : ∀ c ∈ plain.head?, isSign c = false)
    (h : front ++ cs = signs ++ plain) : front = signs ∧ cs = plain := by
  have htake := congrArg (List.takeWhile isSign) h
  rw [List.takeWhile_append_of_pos hf, List.takeWhile_append_of_pos hs, takeWhile_of_head? hcs, takeWhile_of_head? hp,
    List.append_nil, List.append_nil] at htake
  obtain rfl := htake
  exact ⟨rfl, List.append_cancel_left h⟩

theorem unsigned_dropWhile (cs : List Char) : ∀ c ∈ (cs.dropWhile isSign).head?, isSign c = false := by
  intro c hc
  have h := List.head?_dropWhile_not isSign cs
  rw [Option.mem_def.mp hc] at h
  simpa using h

/-- A text that can be read spells what is read. -/
theorem spells_of_reads (h : Bare plain) (hdrop : dropUnderscores? (trim written) = some cs)
    (hsplit : splitSign cs = (negative, plain)) : ∃ sign : Sign, sign.isMinus = negative ∧ Spells sign plain written := by
  obtain ⟨before, after, hb, ha, hw⟩ := exists_trim written
  obtain ⟨sign, hcs, rfl⟩ := exists_sign hsplit
  obtain ⟨hbetween, hfilter⟩ := dropUnderscores?_eq_some.mp hdrop
  have hhead := (between_underscore_iff.mp hbetween).1
  generalize trim written = core at *
  have hrest : ∀ c ∈ ((core.dropWhile isSign).filter (· ≠ '_')).head?, isSign c = false := by
    rw [head?_filter_underscore hhead]
    exact unsigned_dropWhile core
  have hparts : core.takeWhile isSign ++ (core.dropWhile isSign).filter (· ≠ '_') = sign.text ++ plain := by
    rw [← filter_underscores, hfilter, hcs]
  obtain ⟨hsign, hplain⟩ := signs_unique (List.all_eq_true.mp List.all_takeWhile) (fun c hc => Sign.isSign_of_mem hc)
    hrest h.unsigned hparts
  refine ⟨sign, rfl, core.dropWhile isSign, ⟨before, after, hb, ha, ?_⟩, hbetween, hplain⟩
  rw [hw, ← hsign, List.takeWhile_append_dropWhile]

theorem trim_framed {sign : Sign} (h : Framed sign core written) (hne : core ≠ []) (hsolid : ∀ c ∈ core.head?, isBlank c = false)
    (hlast : ∀ c ∈ core.getLast?, isBlank c = false) : trim written = sign.text ++ core := by
  obtain ⟨before, after, hb, ha, rfl⟩ := h
  refine trim_surrounded hb ha (List.append_ne_nil_of_right_ne_nil _ hne) ?_ ?_
  · intro c hc
    rw [List.head?_append] at hc
    cases hs : sign.text.head? with
    | some s =>
      rw [hs] at hc
      cases hc
      exact isBlank_of_isSign (Sign.isSign_of_mem (List.mem_of_head? hs))
    | none =>
      rw [hs, Option.none_or] at hc
      exact hsolid c hc
  · intro c hc
    rw [List.getLast?_append, List.getLast?_eq_some_getLast hne, Option.some_or] at hc
    rw [List.getLast?_eq_some_getLast hne] at hlast
    exact hlast c hc

/-- A text that spells a numeral is read as it. -/
theorem Spells.reads {sign : Sign} (h : Bare plain) (hs : Spells sign plain written) :
    dropUnderscores? (trim written) = some (sign.text ++ plain) := by
  obtain ⟨body, hframed, hbetween, rfl⟩ := hs
  obtain ⟨hhead, hlast, -⟩ := between_underscore_iff.mp hbetween
  have hbody : body ≠ [] := by
    rintro rfl
    exact h.nonempty rfl
  have hsolid : ∀ c ∈ body, c ≠ '_' → isBlank c = false := fun c hc hne =>
    h.solid c (List.mem_filter.mpr ⟨hc, decide_eq_true hne⟩)
  have hunsigned : ∀ c ∈ body.head?, isSign c = false := by
    rw [← head?_filter_underscore hhead]
    exact h.unsigned
  have hsigns : ∀ c ∈ sign.text, isSign c = true := fun c hc => Sign.isSign_of_mem hc
  rw [trim_framed hframed hbody (fun c hc => hsolid c (List.mem_of_head? hc) fun he => hhead (he ▸ hc))
    (fun c hc => hsolid c (List.mem_of_getLast? hc) fun he => hlast (he ▸ hc))]
  rw [dropUnderscores?_eq_some, List.dropWhile_append_of_pos hsigns, dropWhile_of_head? hunsigned,
    List.filter_append, filter_signs hsigns]
  exact ⟨hbetween, rfl⟩

/-! Digits -/

/-- One or more digits. -/
structure Digits (cs : List Char) : Prop where
  nonempty : cs ≠ []
  all : ∀ c ∈ cs, c.isDigit = true

theorem digits_iff : (cs.isEmpty || !cs.all Char.isDigit) = false ↔ Digits cs := by
  simp only [Bool.or_eq_false_iff, Bool.not_eq_false', List.all_eq_true, List.isEmpty_eq_false_iff]
  exact ⟨fun h => ⟨h.1, h.2⟩, fun h => ⟨h.nonempty, h.all⟩⟩

theorem isBlank_of_isDigit (h : c.isDigit = true) : isBlank c = false := by
  have hrange : 48 ≤ c.toNat ∧ c.toNat ≤ 57 := Char.isDigit_iff_toNat.mp h
  simp only [isBlank, Bool.or_eq_false_iff, Bool.and_eq_false_iff, decide_eq_false_iff_not]
  omega

/-- A character with a property that neither sign has is no sign. -/
theorem isSign_of_holds (hplus : p '+' = false) (hminus : p '-' = false) (h : p c = true) : isSign c = false := by
  simp only [isSign, Bool.or_eq_false_iff, decide_eq_false_iff_not]
  constructor
  · rintro rfl
    cases hplus.symm.trans h
  · rintro rfl
    cases hminus.symm.trans h

theorem isSign_of_isDigit (h : c.isDigit = true) : isSign c = false := isSign_of_holds rfl rfl h

theorem Digits.unsigned (h : Digits cs) : ∀ c ∈ cs.head?, isSign c = false := fun c hc =>
  isSign_of_isDigit (h.all c (List.mem_of_head? hc))

theorem Digits.bare (h : Digits plain) : Bare plain where
  nonempty := h.nonempty
  solid c hc := isBlank_of_isDigit (h.all c hc)
  unsigned := h.unsigned

end CseMachine.Text

import CseMachine.NameTable
import Mathlib.Data.Finset.Card
import Mathlib.Data.Finset.Dedup

/-!
# Numbers and texts

A table numbers the distinct texts it has seen in the order in which they came, those
that every table knows first. Its two halves are inverse to each other and only grow,
so a number stands for one text, and for the same one ever after.
-/
namespace CseMachine.NameTable

variable {t : NameTable} {text other : String} {n : Nat}

/-- Only the empty text has a number. -/
def blank : NameTable := ⟨#[""], Std.HashMap.ofList [("", 0)]⟩

/-- The table after texts have been interned in turn. -/
def afterAll (t : NameTable) (texts : List String) : NameTable := texts.foldl (fun t text => (t.intern text).2) t

/-- The numbers that texts get when they are interned in turn. -/
def handOut (t : NameTable) : List String → List Nat
  | [] => []
  | text :: rest => (t.intern text).1 :: (t.intern text).2.handOut rest

theorem new_eq : new = blank.afterAll reserved := rfl

theorem afterAll_cons (t : NameTable) (text : String) (rest : List String) :
    t.afterAll (text :: rest) = (t.intern text).2.afterAll rest := rfl

theorem afterAll_append (t : NameTable) (xs ys : List String) : t.afterAll (xs ++ ys) = (t.afterAll xs).afterAll ys :=
  List.foldl_append

/-! One text -/

/-- A text has a number exactly if it stands there. -/
structure Inverse (t : NameTable) : Prop where
  iff : ∀ (text : String) (n : Nat), t.numbers[text]? = some n ↔ t.texts[n]? = some text

theorem intern_known (h : t.numbers[text]? = some n) : t.intern text = (n, t) := by
  simp only [intern, h]

theorem intern_unknown (h : t.numbers[text]? = none) :
    t.intern text = (t.texts.size, ⟨t.texts.push text, t.numbers.insert text t.texts.size⟩) := by
  simp only [intern, h]

theorem blank_inverse : blank.Inverse where
  iff text n := by
    have hnumbers : blank.numbers[text]? = if "" = text then some 0 else none := by
      simp [blank, Std.HashMap.ofList_singleton, Std.HashMap.getElem?_insert]
    have htexts : blank.texts[n]? = if n = 0 then some "" else none := Array.getElem?_singleton
    rw [hnumbers, htexts]
    grind

/-- A new text takes the next number, which no other text has. -/
theorem Inverse.intern (h : t.Inverse) (text : String) : (t.intern text).2.Inverse := by
  cases hn : t.numbers[text]? with
  | some n =>
    rw [intern_known hn]
    exact h
  | none =>
    rw [intern_unknown hn]
    have hnew : ∀ n : Nat, t.texts[n]? ≠ some text := by
      intro n hs
      rw [(h.iff text n).mpr hs] at hn
      cases hn
    refine ⟨fun other n => ?_⟩
    rw [Std.HashMap.getElem?_insert, Array.getElem?_push]
    have hold := h.iff other n
    by_cases ho : text = other
    · subst ho
      simp only [BEq.rfl, if_true, Option.some.injEq]
      by_cases hs : n = t.texts.size
      · simp [hs]
      · simp [hs, Ne.symm hs, hnew n]
    · simp only [beq_iff_eq, ho, if_false, hold]
      by_cases hs : n = t.texts.size
      · subst hs
        simp [ho]
      · simp [hs]

/-- The number is that of the text. -/
theorem Inverse.getElem?_intern (h : t.Inverse) (text : String) : (t.intern text).2.texts[(t.intern text).1]? = some text := by
  cases hn : t.numbers[text]? with
  | some n =>
    rw [intern_known hn]
    exact (h.iff text n).mp hn
  | none =>
    rw [intern_unknown hn]
    exact Array.getElem?_push_size

/-- What stands in the table stays where it is. -/
theorem getElem?_intern_of_some (text : String) (hs : t.texts[n]? = some other) : (t.intern text).2.texts[n]? = some other := by
  cases hn : t.numbers[text]? with
  | some n =>
    rw [intern_known hn]
    exact hs
  | none =>
    rw [intern_unknown hn]
    have hlt : n < t.texts.size := (Array.getElem?_eq_some_iff.mp hs).1
    rw [Array.getElem?_push, if_neg (Nat.ne_of_lt hlt)]
    exact hs

/-- The texts of the table are those that were there and the one that came. -/
theorem Inverse.mem_intern (h : t.Inverse) : other ∈ (t.intern text).2.texts ↔ other ∈ t.texts ∨ other = text := by
  cases hn : t.numbers[text]? with
  | some n =>
    rw [intern_known hn]
    have hmem : text ∈ t.texts := Array.mem_of_getElem? ((h.iff text n).mp hn)
    exact ⟨.inl, fun ho => ho.elim id fun ho => ho ▸ hmem⟩
  | none =>
    rw [intern_unknown hn]
    exact Array.mem_push

/-! Texts in turn -/

theorem Inverse.afterAll (h : t.Inverse) (texts : List String) : (t.afterAll texts).Inverse := by
  induction texts generalizing t with
  | nil => exact h
  | cons text rest ih => exact ih (h.intern text)

theorem getElem?_afterAll_of_some (texts : List String) (hs : t.texts[n]? = some other) :
    (t.afterAll texts).texts[n]? = some other := by
  induction texts generalizing t with
  | nil => exact hs
  | cons text rest ih => exact ih (getElem?_intern_of_some text hs)

theorem Inverse.mem_afterAll (h : t.Inverse) {texts : List String} :
    other ∈ (t.afterAll texts).texts ↔ other ∈ t.texts ∨ other ∈ texts := by
  induction texts generalizing t with
  | nil => exact ⟨.inl, fun ho => ho.elim id fun ho => nomatch ho⟩
  | cons text rest ih =>
    rw [afterAll_cons, ih (h.intern text), h.mem_intern, List.mem_cons, or_assoc]

/-- Every number in use was handed out or in use before. -/
theorem mem_handOut {texts : List String} (hs : (t.afterAll texts).texts[n]? = some other) :
    n ∈ t.handOut texts ∨ t.texts[n]? = some other := by
  induction texts generalizing t with
  | nil => exact .inr hs
  | cons text rest ih =>
    rw [afterAll_cons] at hs
    rcases ih hs with hn | hs
    · exact .inl (.tail _ hn)
    · cases hk : t.numbers[text]? with
      | some m =>
        rw [intern_known hk] at hs
        exact .inr hs
      | none =>
        have hfirst : (t.handOut (text :: rest)).head? = some t.texts.size := by
          rw [handOut, intern_unknown hk, List.head?_cons]
        rw [intern_unknown hk, Array.getElem?_push] at hs
        split at hs
        · next hsize => exact .inl (hsize ▸ List.mem_of_head? hfirst)
        · exact .inr hs

theorem Inverse.lt_of_mem_handOut (h : t.Inverse) {texts : List String} (hn : n ∈ t.handOut texts) :
    n < (t.afterAll texts).size := by
  induction texts generalizing t with
  | nil => cases hn
  | cons text rest ih =>
    rcases List.mem_cons.mp hn with rfl | hn
    · have hplace := getElem?_afterAll_of_some rest (h.getElem?_intern text)
      exact (Array.getElem?_eq_some_iff.mp hplace).1
    · exact ih (h.intern text) hn

/-- No text stands in the table twice. -/
theorem Inverse.nodup (h : t.Inverse) : t.texts.toList.Nodup := by
  refine List.nodup_iff_getElem?_ne_getElem?.mpr fun i j hij hj heq => ?_
  have hi : t.texts[i]? = some t.texts.toList[j] := by
    rw [← Array.getElem?_toList, heq, List.getElem?_eq_getElem hj]
  have hnumber := (h.iff _ _).mpr hi
  have hself : t.texts[j]? = some t.texts.toList[j] := by
    rw [← Array.getElem?_toList, List.getElem?_eq_getElem hj]
  rw [(h.iff _ _).mpr hself] at hnumber
  exact absurd (Option.some.inj hnumber) (Nat.ne_of_gt hij)

theorem Inverse.size_afterAll (h : t.Inverse) (texts : List String) :
    (t.afterAll texts).size = (t.texts.toList ++ texts).toFinset.card := by
  have hcard := List.toFinset_card_of_nodup (h.afterAll texts).nodup
  have hsame : (t.afterAll texts).texts.toList.toFinset = (t.texts.toList ++ texts).toFinset := by
    ext other
    rw [List.mem_toFinset, List.mem_toFinset, List.mem_append, Array.mem_toList_iff, Array.mem_toList_iff]
    exact h.mem_afterAll
  rw [← hsame, hcard]
  rfl

/-! Tables as they start -/

theorem new_afterAll (texts : List String) : new.afterAll texts = blank.afterAll (reserved ++ texts) := by
  rw [new_eq, afterAll_append]

theorem new_inverse (texts : List String) : (new.afterAll texts).Inverse := by
  rw [new_afterAll]
  exact blank_inverse.afterAll _

/-- At any point of a sequence of texts interned in a new table: a text that is interned then has a number below the
size that stands for it ever after, no other text gets it, and the two halves of the table are inverse; as many numbers
are in use as there are distinct texts, the empty one and the reserved words among them, and a number that was not
handed out stands for the empty text. -/
theorem interning_bijective (texts : List String) :
    (∀ text later, (new.afterAll (texts ++ text :: later)).lookup ((new.afterAll texts).intern text).1 = text ∧
      ((new.afterAll texts).intern text).1 < (new.afterAll (texts ++ text :: later)).size) ∧
    (∀ text later other, ((new.afterAll (texts ++ text :: later)).intern other).1 = ((new.afterAll texts).intern text).1 ↔
      other = text) ∧
    (∀ (text : String) (n : Nat), (new.afterAll texts).numbers[text]? = some n ↔ (new.afterAll texts).texts[n]? = some text) ∧
    (new.afterAll texts).size = ("" :: reserved ++ texts).toFinset.card ∧
    ∀ n, n ∉ blank.handOut (reserved ++ texts) → (new.afterAll texts).lookup n = "" := by
  have hplace : ∀ text later,
      (new.afterAll (texts ++ text :: later)).texts[((new.afterAll texts).intern text).1]? = some text := by
    intro text later
    rw [afterAll_append, afterAll_cons]
    exact getElem?_afterAll_of_some later ((new_inverse texts).getElem?_intern text)
  refine ⟨fun text later => ⟨?_, ?_⟩, fun text later other => ⟨fun heq => ?_, ?_⟩, (new_inverse texts).iff, ?_, fun n hn => ?_⟩
  · rw [lookup, hplace]
    rfl
  · exact (Array.getElem?_eq_some_iff.mp (hplace text later)).1
  · have hother := (new_inverse (texts ++ text :: later)).getElem?_intern other
    rw [heq, getElem?_intern_of_some other (hplace text later)] at hother
    exact (Option.some.inj hother).symm
  · rintro rfl
    rw [intern_known (((new_inverse _).iff _ _).mpr (hplace other later))]
  · rw [new_afterAll]
    exact blank_inverse.size_afterAll _
  · cases hs : (new.afterAll texts).texts[n]? with
    | none => rw [lookup, hs]; rfl
    | some text =>
      rw [new_afterAll] at hs
      -- only the empty text has a number that was never handed out
      have hblank := (mem_handOut hs).resolve_left hn
      rw [lookup, new_afterAll, hs]
      simp only [blank, Array.getElem?_singleton] at hblank
      split at hblank
      · exact (Option.some.inj hblank).symm
      · cases hblank

/-- Of three texts two are the same, so eighteen numbers are in use. -/
theorem interning_bijective_repeated :
    40 ∉ blank.handOut (reserved ++ ["x", "y", "x"]) ∧ (new.afterAll ["x", "y", "x"]).lookup 40 = "" ∧
      (new.afterAll ["x", "y", "x"]).size = 18 ∧
      ((new.afterAll ["x", "y"]).intern "x").1 = ((new.afterAll []).intern "x").1 := by
  obtain ⟨-, -, -, hsize, hunused⟩ := interning_bijective ["x", "y", "x"]
  have hcount : (new.afterAll ["x", "y", "x"]).size = 18 := hsize
  have hnot : 40 ∉ blank.handOut (reserved ++ ["x", "y", "x"]) := by
    intro hn
    have hlt := blank_inverse.lt_of_mem_handOut hn
    rw [← new_afterAll, hcount] at hlt
    omega
  exact ⟨hnot, hunused 40 hnot, hcount, ((interning_bijective []).2.1 "x" ["y"] "x").mpr rfl⟩

end CseMachine.NameTable

import CseMachine.Proofs.Memory.Operations
import CseMachine.Proofs.Number.Equality

/-!
# Equality of values

Numbers are equal by what they are exactly, lists element by element, and values of
different kinds differ. So equality is symmetric and transitive whatever numbers and
lists are compared, and only a NaN and an error differ from themselves; a list equals
itself even if it holds one of those.
-/
namespace CseMachine

open Binary64 (ofRat)

namespace Store

variable {s : Store}

/-- The stores that the operations make. -/
inductive Made : Store → Prop
  | empty : Made .empty
  | alloc {s : Store} (made : Made s) (owner : EnvId) (content : Content) : Made (s.alloc owner content).2
  | setOwner {s : Store} (made : Made s) (id : ObjId) (owner : EnvId) : Made (s.setOwner id owner)
  | nameClosure {s : Store} (made : Made s) (id : ObjId) (name : String) : Made (s.nameClosure id name)
  | filter {s : Store} (made : Made s) (keep : ObjId → Bool) : Made (s.filter keep)

/-- The lists among the elements of a list are older than it. -/
def Layered (s : Store) : Prop := ∀ a xs, s.list? a = some xs → ∀ b, .list b ∈ xs → b.index < a.index

/-- A store has given its objects their numbers. -/
theorem Made.lt_next (h : s.Made) {id : ObjId} {o : Object} (ho : s.get? id = some o) : id.index < s.next := by
  induction h generalizing o with
  | empty => cases ho
  | alloc made owner content ih =>
    rw [Memory.get?_alloc] at ho
    split at ho
    · next hid => exact hid ▸ Nat.lt_succ_self _
    · exact Nat.lt_succ_of_lt (ih ho)
  | @setOwner s made id' owner ih =>
    have hsome := Memory.map_content_setOwner s id' owner id
    rw [ho] at hsome
    obtain ⟨o', ho', -⟩ := Option.map_eq_some_iff.mp hsome.symm
    exact ih ho'
  | nameClosure made id' name ih =>
    rw [Memory.get?_nameClosure] at ho
    obtain ⟨o', ho', -⟩ := Option.map_eq_some_iff.mp ho
    exact ih ho'
  | filter made keep ih =>
    simp only [Store.get?, Store.filter, Std.ExtTreeMap.getElem?_filter'] at ho
    exact ih (Option.eq_some_of_filter_eq_some ho)

theorem Made.list_lt_next (h : s.Made) {a : ObjId} {xs : List Value} (hx : s.list? a = some xs) : a.index < s.next := by
  simp only [list?] at hx
  split at hx
  · next owner items ho => exact h.lt_next ho
  · cases hx

/-- What a value has as soon as its elements have it, all values have. -/
theorem Layered.induction {P : Value → Prop} (h : s.Layered)
    (step : ∀ v, (∀ a xs, v = .list a → s.list? a = some xs → ∀ x ∈ xs, P x) → P v) (v : Value) : P v := by
  have hatom : ∀ v : Value, (∀ a, v ≠ .list a) → P v := fun v hv => step v fun a _ ha => absurd ha (hv a)
  have hlist : ∀ a : ObjId, P (.list a) := by
    intro a
    induction hn : a.index using Nat.strong_induction_on generalizing a with
    | _ n ih =>
      refine step _ fun a' xs haa hxs x hx => ?_
      cases haa
      by_cases hx' : ∃ b, x = .list b
      · obtain ⟨b, rfl⟩ := hx'
        exact ih b.index (hn ▸ h a xs hxs b hx) b rfl
      · exact hatom x fun b hb => hx' ⟨b, hb⟩
  cases v with
  | list a => exact hlist a
  | _ => exact hatom _ nofun

theorem layered_empty : empty.Layered := nofun

theorem Layered.alloc (h : s.Layered) {items : List Value} (hold : ∀ b, .list b ∈ items → b.index < s.next) (owner : EnvId) :
    (s.alloc owner (.list items)).2.Layered := by
  intro a xs hx b hb
  simp only [list?, Memory.get?_alloc] at hx
  by_cases ha : (⟨s.next⟩ : ObjId) = a
  · subst ha
    rw [if_pos rfl] at hx
    cases hx
    exact hold b hb
  · rw [if_neg ha] at hx
    exact h a xs hx b hb

end Store

namespace Value

variable {s : Store} {v w x y z : Value} {a b : ObjId} {xs ys : List Value} {n m : ℕ}

/-- A list that is there has a number below the bound. -/
def Below (s : Store) (n : ℕ) (v : Value) : Prop := ∀ a xs, v = .list a → s.list? a = some xs → a.index < n

theorem below_next (h : s.Made) : v.Below s s.next := fun _ _ _ hx => h.list_lt_next hx

/-- Two lists with the given test for their elements. -/
def equalLists (s : Store) (test : Value → Value → Bool) (a b : ObjId) : Bool :=
  a == b || match s.list? a, s.list? b with
    | some xs, some ys => xs.length == ys.length && (xs.zip ys).all fun (x, y) => test x y
    | _, _ => false

theorem equalLists_congr {test test' : Value → Value → Bool}
    (h : ∀ xs, s.list? a = some xs → ∀ x ∈ xs, ∀ y, test x y = test' x y) : equalLists s test a b = equalLists s test' a b := by
  simp only [equalLists]
  cases hx : s.list? a with
  | none => rfl
  | some xs =>
    cases hy : s.list? b with
    | none => rfl
    | some ys =>
      have hall : ((xs.zip ys).all fun p => test p.1 p.2) = (xs.zip ys).all fun p => test' p.1 p.2 := by
        rw [Bool.eq_iff_iff, List.all_eq_true, List.all_eq_true]
        refine forall₂_congr fun p hp => ?_
        rw [h xs hx p.1 (List.of_mem_zip hp).1 p.2]
      dsimp only
      rw [hall]

/-- Where the bound is out of reach the elements are compared within one less. -/
theorem equalWithin_list (h : (list a).Below s n) :
    equalWithin s n (.list a) (.list b) = equalLists s (equalWithin s (n - 1)) a b := by
  cases n with
  | succ n => rfl
  | zero =>
    have hnone : s.list? a = Option.none := by
      cases hx : s.list? a with
      | none => rfl
      | some xs => exact absurd (h a xs rfl hx) (Nat.not_lt_zero _)
    simp only [equalWithin, equalLists, hnone, Bool.or_false]

/-- Bounds that are out of reach make no difference. -/
theorem equalWithin_congr (hl : s.Layered) (hn : v.Below s n) (hm : v.Below s m) : equalWithin s n v w = equalWithin s m v w := by
  induction v using hl.induction generalizing n m w with
  | step v ih =>
    cases v with
    | list a =>
      cases w with
      | list b =>
        rw [equalWithin_list hn, equalWithin_list hm]
        refine equalLists_congr fun xs hxs x hx y => ih a xs rfl hxs x hx ?_ ?_
        · rintro c zs rfl -
          have hca := hl a xs hxs c hx
          have han := hn a xs rfl hxs
          omega
        · rintro c zs rfl -
          have hca := hl a xs hxs c hx
          have ham := hm a xs rfl hxs
          omega
      | _ => simp only [equalWithin]
    | _ => cases w <;> simp only [equalWithin]

theorem equalLists_iff {test : Value → Value → Bool} : equalLists s test a b = true ↔ a = b ∨ ∃ xs ys,
    s.list? a = some xs ∧ s.list? b = some ys ∧ List.Forall₂ (fun x y => test x y = true) xs ys := by
  rw [equalLists, Bool.or_eq_true, beq_iff_eq]
  refine or_congr_right ?_
  cases hx : s.list? a with
  | none => exact iff_of_false Bool.false_ne_true fun ⟨_, _, h, _⟩ => nomatch h
  | some xs =>
    cases hy : s.list? b with
    | none => exact iff_of_false Bool.false_ne_true fun ⟨_, _, _, h, _⟩ => nomatch h
    | some ys =>
      dsimp only
      rw [Bool.and_eq_true, beq_iff_eq, List.all_eq_true]
      constructor
      · rintro ⟨hlen, hall⟩
        exact ⟨xs, ys, rfl, rfl, List.forall₂_iff_zip.mpr ⟨hlen, fun hp => hall _ hp⟩⟩
      · rintro ⟨xs', ys', hxs, hys, heach⟩
        obtain rfl := Option.some.inj hxs
        obtain rfl := Option.some.inj hys
        obtain ⟨hlen, hall⟩ := List.forall₂_iff_zip.mp heach
        exact ⟨hlen, fun p hp => hall hp⟩

theorem forall₂_comp {R S T : Value → Value → Prop} {zs : List Value} (h : ∀ x y z, R x y → S y z → T x z)
    (hxy : List.Forall₂ R xs ys) (hyz : List.Forall₂ S ys zs) : List.Forall₂ T xs zs := by
  induction hxy generalizing zs with
  | nil =>
    cases hyz
    exact .nil
  | cons hhead _ ih =>
    cases hyz with
    | cons hhead' htail' => exact .cons (h _ _ _ hhead hhead') (ih htail')

/-- How two values come to be equal, if it is known which elements are. -/
inductive Matches (s : Store) (R : Value → Value → Prop) : Value → Value → Prop
  | none : Matches s R .none .none
  | bool (b : Bool) : Matches s R (.bool b) (.bool b)
  | number {m n : Number} (exact : m.equal n = true) : Matches s R (.number m) (.number n)
  | str (t : String) : Matches s R (.str t) (.str t)
  | closure (id : ObjId) : Matches s R (.closure id) (.closure id)
  | builtin (f : Builtin) : Matches s R (.builtin f) (.builtin f)
  | same (a : ObjId) : Matches s R (.list a) (.list a)
  | elements {a b : ObjId} {xs ys : List Value} (left : s.list? a = some xs) (right : s.list? b = some ys)
      (each : List.Forall₂ R xs ys) : Matches s R (.list a) (.list b)

/-- A NaN, a complex number with a NaN in it, or an error. -/
def Unequaled : Value → Prop
  | .number n => n.HasNaN
  | .error _ => True
  | _ => False

section

variable (hs : s.Made) (hl : s.Layered)
include hs hl

theorem equal_list : equal s (.list a) (.list b) = equalLists s (equal s) a b := by
  rw [equal, equalWithin_list (below_next hs)]
  refine equalLists_congr fun xs hxs x hx y => equalWithin_congr hl ?_ (below_next hs)
  rintro c zs rfl -
  have hca := hl a xs hxs c hx
  have han := hs.list_lt_next hxs
  omega

/-- Values are equal if they match, their elements being equal. -/
theorem equal_iff_matches : equal s v w = true ↔ Matches s (fun x y => equal s x y = true) v w := by
  constructor
  · intro h
    cases v with
    | list a =>
      cases w with
      | list b =>
        rw [equal_list hs hl, equalLists_iff] at h
        rcases h with rfl | ⟨xs, ys, hxs, hys, heach⟩
        · exact .same a
        · exact .elements hxs hys heach
      | _ => simp [equal, equalWithin] at h
    | number m =>
      cases w with
      | number n => exact .number (by simpa [equal, equalWithin] using h)
      | _ => simp [equal, equalWithin] at h
    | none =>
      cases w with
      | none => exact .none
      | _ => simp [equal, equalWithin] at h
    | error e => cases w <;> simp [equal, equalWithin] at h
    | _ =>
      cases w <;> simp [equal, equalWithin] at h
      subst h
      constructor
  · intro h
    cases h with
    | same a =>
      rw [equal_list hs hl, equalLists_iff]
      exact .inl rfl
    | elements left right each =>
      rw [equal_list hs hl, equalLists_iff]
      exact .inr ⟨_, _, left, right, each⟩
    | number exact => simpa [equal, equalWithin] using exact
    | _ => simp [equal, equalWithin]

theorem equal_symm (h : equal s v w = true) : equal s w v = true := by
  induction v using hl.induction generalizing w with
  | step v ih =>
    rw [equal_iff_matches hs hl] at h ⊢
    cases h with
    | number exact => exact .number (Number.equal_comm _ _ ▸ exact)
    | @elements a b xs ys left right each =>
      have hback : ∀ x ∈ xs, ∀ y, equal s x y = true → equal s y x = true := fun x hx y => ih a xs rfl left x hx
      have hboth := (List.forall₂_and_left xs ys).mpr ⟨hback, each⟩
      exact .elements right left (hboth.imp fun x y hxy => hxy.1 y hxy.2).flip
    | _ => constructor

theorem equal_trans (hvw : equal s v w = true) (hwz : equal s w z = true) : equal s v z = true := by
  induction v using hl.induction generalizing w z with
  | step v ih =>
    rw [equal_iff_matches hs hl] at hvw hwz ⊢
    cases hvw with
    | number exact =>
      cases hwz with
      | number exact' => exact .number (Number.equal_trans exact exact')
    | @elements a b xs ys left right each =>
      cases hwz with
      | same => exact .elements left right each
      | elements left' right' each' =>
        obtain rfl := Option.some.inj (right.symm.trans left')
        have hon : ∀ x ∈ xs, ∀ y z, equal s x y = true → equal s y z = true → equal s x z = true :=
          fun x hx y z => ih a xs rfl left x hx
        have hboth := (List.forall₂_and_left xs ys).mpr ⟨hon, each⟩
        exact .elements left right' (forall₂_comp (fun x y z hxy hyz => hxy.1 y z hxy.2 hyz) hboth each')
    | _ => exact hwz

theorem equal_self_iff : equal s v v = true ↔ ¬ v.Unequaled := by
  rw [equal_iff_matches hs hl]
  cases v with
  | number m =>
    rw [Unequaled, ← Number.equal_self_iff]
    exact ⟨fun | .number exact => exact, .number⟩
  | error e => exact iff_of_false nofun (not_not.mpr trivial)
  | _ => exact iff_of_true (by constructor) id

end

/-- Equality of values is symmetric and transitive, and all but a NaN and an error equal themselves. Two lists are
equal just if they are so element by element, and two numbers without a NaN just if they are the same pair of
extended reals; so an integer that is no double equals no double and no complex number. -/
theorem equal_consistent {store : Store} (hs : store.Made) (hl : store.Layered) (x y z : Value) :
    (equal store x y = true → equal store y x = true) ∧
    (equal store x y = true → equal store y z = true → equal store x z = true) ∧
    (equal store x x = true ↔ ¬ x.Unequaled) ∧
    (∀ a b xs ys, a ≠ b → store.list? a = some xs → store.list? b = some ys →
      (equal store (.list a) (.list b) = true ↔ List.Forall₂ (fun x y => equal store x y = true) xs ys)) ∧
    (∀ m n : Number, ¬ m.HasNaN → ¬ n.HasNaN → ∃ v w, m.exactValue? = some v ∧ n.exactValue? = some w ∧
      (equal store (.number m) (.number n) = true ↔ v = w)) ∧
    (∀ i : ℤ, (∀ x : Float, Binary64.extended? x ≠ some (ofRat i)) →
      (∀ x, equal store (.int i) (.float x) = false) ∧ ∀ z, equal store (.int i) (.complex z) = false) := by
  have hnumber : ∀ m n : Number, equal store (.number m) (.number n) = m.equal n := fun m n => by rw [equal, equalWithin]
  refine ⟨equal_symm hs hl, equal_trans hs hl, equal_self_iff hs hl, ?_, ?_, ?_⟩
  · intro a b xs ys hab hxs hys
    rw [equal_list hs hl, equalLists_iff]
    constructor
    · rintro (h | ⟨xs', ys', hxs', hys', heach⟩)
      · exact absurd h hab
      · obtain rfl := Option.some.inj (hxs.symm.trans hxs')
        obtain rfl := Option.some.inj (hys.symm.trans hys')
        exact heach
    · exact fun heach => .inr ⟨xs, ys, hxs, hys, heach⟩
  · intro m n hm hn
    obtain ⟨v, hv⟩ := Option.ne_none_iff_exists'.mp (mt Number.exactValue?_eq_none.mp hm)
    obtain ⟨w, hw⟩ := Option.ne_none_iff_exists'.mp (mt Number.exactValue?_eq_none.mp hn)
    refine ⟨v, w, hv, hw, ?_⟩
    rw [hnumber, Number.equal_iff_exact, hv, hw]
    constructor
    · rintro ⟨u, hvu, hwu⟩
      exact (Option.some.inj hvu).trans (Option.some.inj hwu).symm
    · rintro rfl
      exact ⟨v, rfl, rfl⟩
  · intro i hi
    refine ⟨fun x => ?_, fun z => ?_⟩
    · rw [hnumber]
      exact Number.equal_int_eq_false hi (by simp)
    · rw [hnumber]
      exact Number.equal_int_eq_false hi (by simp)

/-- The lists `[1]` and `[1.0]`, and around each of them a list. -/
def nestedOnes : Store :=
  let one := (Store.empty.alloc .global (.list [.int 1])).2
  let ones := (one.alloc .global (.list [.float 1.0])).2
  let around := (ones.alloc .global (.list [.list ⟨0⟩])).2
  (around.alloc .global (.list [.list ⟨1⟩])).2

/-- The inner lists are equal by their numbers, and so are the outer ones, both ways around. -/
theorem equal_consistent_nestedOnes :
    nestedOnes.Made ∧ nestedOnes.Layered ∧ equal nestedOnes (.list ⟨2⟩) (.list ⟨3⟩) = true ∧
      equal nestedOnes (.list ⟨3⟩) (.list ⟨2⟩) = true := by
  have hs : nestedOnes.Made := .alloc (.alloc (.alloc (.alloc .empty _ _) _ _) _ _) _ _
  have hl : nestedOnes.Layered := by
    refine Store.Layered.alloc (.alloc (.alloc (.alloc Store.layered_empty ?_ _) ?_ _) ?_ _) ?_ _
    · exact fun b hb => absurd (List.mem_singleton.mp hb) nofun
    · exact fun b hb => absurd (List.mem_singleton.mp hb) nofun
    · intro b hb
      cases List.mem_singleton.mp hb
      decide
    · intro b hb
      cases List.mem_singleton.mp hb
      decide
  obtain ⟨hsymm, -, -, hlists, hnumbers, -⟩ := equal_consistent hs hl (.list ⟨2⟩) (.list ⟨3⟩) .none
  have hparts : Binary64.parts 1.0 = .finite false (2 ^ 52) (-52) := by decide
  have hexact : Number.exactValue? (.float 1.0) = some (ofRat 1, ofRat 0) := by
    rw [Number.exactValue?, Binary64.extended?_of_parts hparts]
    norm_num [Binary64.withSign]
  have hone : equal nestedOnes (.int 1) (.float 1.0) = true := by
    obtain ⟨v, w, hv, hw, hiff⟩ := hnumbers (.int 1) (.float 1.0) id (show ¬ Float.isNaN 1.0 = true by decide)
    refine hiff.mpr ?_
    rw [hexact] at hw
    rw [← Option.some.inj hv, ← Option.some.inj hw, Int.cast_one]
  have hinner : equal nestedOnes (.list ⟨0⟩) (.list ⟨1⟩) = true :=
    (hlists ⟨0⟩ ⟨1⟩ [.int 1] [.float 1.0] (by decide) rfl rfl).mpr (.cons hone .nil)
  have houter : equal nestedOnes (.list ⟨2⟩) (.list ⟨3⟩) = true :=
    (hlists ⟨2⟩ ⟨3⟩ [.list ⟨0⟩] [.list ⟨1⟩] (by decide) rfl rfl).mpr (.cons hinner .nil)
  exact ⟨hs, hl, houter, hsymm houter⟩

end Value
end CseMachine

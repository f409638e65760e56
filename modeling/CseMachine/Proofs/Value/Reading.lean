import CseMachine.Builtin.Call
import CseMachine.Proofs.Results

/-!
# What operations on values read

Operators, builtins and texts of values look at the store only where a handle
leads them, through lists to their elements. So two stores give the same results
if they have the same contents at a set of ids that holds the handles of the
arguments and the elements of its lists.
-/
namespace CseMachine

namespace Value

/-- The handle in the value, if there is one, has the property. -/
def Within (w : Value) (P : ObjId → Prop) : Prop := ∀ id, w.objectId? = some id → P id

variable {w : Value} {P Q : ObjId → Prop}

theorem Within.mono (h : w.Within P) (hp : ∀ id, P id → Q id) : w.Within Q :=
  fun id hi => hp id (h id hi)

theorem within_of_objectId?_eq_none (h : w.objectId? = Option.none) : w.Within P := by
  intro id hi
  rw [h] at hi
  cases hi

end Value

namespace Store

theorem get?_cases {s t : Store} {id : ObjId}
    (h : (s.get? id).map Object.content = (t.get? id).map Object.content) :
    (s.get? id = none ∧ t.get? id = none) ∨ ∃ owner owner' content,
      s.get? id = some ⟨owner, content⟩ ∧ t.get? id = some ⟨owner', content⟩ := by
  cases hs : s.get? id with
  | none =>
    cases ht : t.get? id with
    | none => exact .inl ⟨rfl, rfl⟩
    | some o => simp [hs, ht] at h
  | some o =>
    cases ht : t.get? id with
    | none => simp [hs, ht] at h
    | some o' =>
      have hc : o.content = o'.content := by simpa [hs, ht] using h
      exact .inr ⟨o.owner, o'.owner, o.content, rfl, by rw [hc]⟩

theorem closure?_congr {s t : Store} {id : ObjId}
    (h : (s.get? id).map Object.content = (t.get? id).map Object.content) :
    s.closure? id = t.closure? id := by
  rcases get?_cases h with ⟨hs, ht⟩ | ⟨owner, owner', content, hs, ht⟩
  · simp only [closure?, hs, ht]
  · simp only [closure?, hs, ht]
    cases content <;> rfl

theorem list?_congr {s t : Store} {id : ObjId}
    (h : (s.get? id).map Object.content = (t.get? id).map Object.content) :
    s.list? id = t.list? id := by
  rcases get?_cases h with ⟨hs, ht⟩ | ⟨owner, owner', content, hs, ht⟩
  · simp only [list?, hs, ht]
  · simp only [list?, hs, ht]
    cases content <;> rfl

/-- The stores have the same contents where the property holds, elements included. -/
structure Alike (P : ObjId → Prop) (s t : Store) : Prop where
  next : s.next = t.next
  contents : ∀ id, P id → (s.get? id).map Object.content = (t.get? id).map Object.content
  element : ∀ id items, P id → s.list? id = some items → ∀ w ∈ items, w.Within P

namespace Alike

variable {P : ObjId → Prop} {s t : Store} (h : Alike P s t)
include h

theorem closure?_eq {id : ObjId} (hi : P id) : s.closure? id = t.closure? id :=
  closure?_congr (h.contents id hi)

theorem list?_eq {id : ObjId} (hi : P id) : s.list? id = t.list? id := list?_congr (h.contents id hi)

end Alike
end Store

namespace Value

variable {P : ObjId → Prop} {s t : Store}

section

variable (h : s.Alike P t)
include h

theorem reprWithin_eq (bound : Nat) {w : Value} (hw : w.Within P) :
    reprWithin s bound w = reprWithin t bound w := by
  induction bound generalizing w with
  | zero =>
    cases w with
    | closure id => simp only [reprWithin, h.closure?_eq (hw id rfl)]
    | _ => simp only [reprWithin]
  | succ bound ih =>
    cases w with
    | closure id => simp only [reprWithin, h.closure?_eq (hw id rfl)]
    | list id =>
      have hi := hw id rfl
      simp only [reprWithin]
      rw [← h.list?_eq hi]
      cases hl : s.list? id with
      | none => rfl
      | some items =>
        have hm : items.map (reprWithin s bound) = items.map (reprWithin t bound) :=
          List.map_congr_left fun w hw => ih (h.element id items hi hl w hw)
        simp only [Option.getD_some, hm]
    | _ => simp only [reprWithin]

theorem repr_eq {w : Value} (hw : w.Within P) : w.repr s = w.repr t := by
  simp only [repr]
  rw [h.next]
  exact reprWithin_eq h _ hw

theorem display_eq {w : Value} (hw : w.Within P) : w.display s = w.display t := by
  cases w with
  | str text => rfl
  | _ => exact repr_eq h hw

theorem equalWithin_eq (bound : Nat) {x y : Value} (hx : x.Within P) (hy : y.Within P) :
    equalWithin s bound x y = equalWithin t bound x y := by
  induction bound generalizing x y with
  | zero => cases x <;> cases y <;> simp only [equalWithin]
  | succ bound ih =>
    cases x with
    | list a =>
      cases y with
      | list b =>
        have ha := hx a rfl
        have hb := hy b rfl
        simp only [equalWithin]
        rw [← h.list?_eq ha, ← h.list?_eq hb]
        cases hxs : s.list? a with
        | none => rfl
        | some xs =>
          cases hys : s.list? b with
          | none => rfl
          | some ys =>
            have hz : ((xs.zip ys).all fun p => equalWithin s bound p.1 p.2) =
                (xs.zip ys).all fun p => equalWithin t bound p.1 p.2 := by
              rw [Bool.eq_iff_iff, List.all_eq_true, List.all_eq_true]
              refine forall₂_congr fun p hp => ?_
              rw [ih (h.element a xs ha hxs _ (List.of_mem_zip hp).1) (h.element b ys hb hys _ (List.of_mem_zip hp).2)]
            dsimp only
            rw [hz]
      | _ => simp only [equalWithin]
    | _ => cases y <;> simp only [equalWithin]

theorem binary_eq (op : BinaryOp) {x y : Value} (hx : x.Within P) (hy : y.Within P) :
    x.binary s op y = x.binary t op y := by
  have he : x.equal s y = x.equal t y := by
    simp only [equal]
    rw [h.next]
    exact equalWithin_eq h _ hx hy
  cases op with
  | arith op => rfl
  | order op => rfl
  | eq => simp only [binary, he]
  | notEq => simp only [binary, he]

theorem subscript_eq {x y : Value} (hx : x.Within P) : x.subscript s y = x.subscript t y := by
  cases x with
  | list id => simp only [subscript, h.list?_eq (hx id rfl)]
  | _ => rfl

end

/-- An element of a list has what all elements of such lists have, and else the result is no handle. -/
theorem subscript_all {Q : Value → Prop} {s : Store} {x y r : Value}
    (he : ∀ id items, Q (.list id) → s.list? id = some items → ∀ w ∈ items, Q w)
    (hn : ∀ w : Value, w.objectId? = Option.none → Q w) (hx : Q x) (hr : x.subscript s y = .ok r) : Q r := by
  cases x with
  | list id =>
    simp only [subscript] at hr
    split at hr
    · next items hl =>
      obtain ⟨i, _, hr⟩ := bind_ok_iff.mp hr
      split at hr
      · next v hv =>
        obtain rfl := Except.ok.inj hr
        exact he id items hx hl _ (List.mem_of_getElem? hv)
      · cases hr
    · cases hr
  | str text =>
    obtain ⟨i, _, hr⟩ := bind_ok_iff.mp hr
    split at hr
    · obtain rfl := Except.ok.inj hr
      exact hn _ rfl
    · cases hr
  | _ => cases hr

theorem subscript_within {P : ObjId → Prop} {s t : Store} {x y r : Value} (h : s.Alike P t) (hx : x.Within P)
    (hr : x.subscript s y = .ok r) : r.Within P :=
  subscript_all (Q := (·.Within P)) (fun id items hi => h.element id items (hi id rfl))
    (fun _ => within_of_objectId?_eq_none) hx hr

/-- Operators compute numbers, strings and bools, which have no handle. -/
theorem arith_no_handle {op : ArithOp} {x y r : Value} (hr : arith op x y = .ok r) :
    r.objectId? = Option.none := by
  simp only [arith] at hr
  split at hr
  · obtain ⟨n, _, rfl⟩ := map_ok_iff.mp hr
    rfl
  · split at hr <;> cases hr
    rfl
  · split at hr <;> cases hr
  · split at hr <;> cases hr
  · cases hr

theorem binary_no_handle {op : BinaryOp} {x y r : Value} (hr : x.binary s op y = .ok r) :
    r.objectId? = Option.none := by
  cases op with
  | arith op => exact arith_no_handle hr
  | eq => cases hr; rfl
  | notEq => cases hr; rfl
  | order op =>
    obtain ⟨b, _, rfl⟩ := map_ok_iff.mp hr
    rfl

theorem unary_no_handle {op : UnaryOp} {x r : Value} (hr : x.unary op = .ok r) :
    r.objectId? = Option.none := by
  simp only [unary] at hr
  split at hr <;> cases hr <;> rfl

end Value

namespace Builtin

variable {P : ObjId → Prop} {s t : Store} (h : s.Alike P t)

section
include h

theorem joined_eq {args : List Value} (ha : ∀ w ∈ args, w.Within P) : joined s args = joined t args := by
  simp only [joined]
  congr 1
  exact List.map_congr_left fun w hw => Value.display_eq h (ha w hw)

theorem printed_eq (f : Builtin) {args : List Value} (ha : ∀ w ∈ args, w.Within P) :
    f.printed s args = f.printed t args := by
  cases f with
  | print => simp only [printed, joined_eq h ha]
  | _ => rfl

theorem length_eq {w : Value} (hw : w.Within P) : length s w = length t w := by
  cases w with
  | list id => simp only [length, h.list?_eq (hw id rfl)]
  | _ => rfl

theorem candidates_eq {args : List Value} (ha : ∀ w ∈ args, w.Within P) :
    candidates s args = candidates t args := by
  cases args with
  | nil => rfl
  | cons w rest =>
    cases rest with
    | nil =>
      cases w with
      | list id => simp only [candidates, h.list?_eq (ha _ (.head _) id rfl)]
      | _ => rfl
    | cons x rest => cases w <;> rfl

theorem extreme_eq (f : Builtin) (better : OrderOp) {args : List Value} (ha : ∀ w ∈ args, w.Within P) :
    extreme f better s args = extreme f better t args := by
  simp only [extreme, candidates_eq h ha]

theorem result_eq (f : Builtin) {args : List Value} (ha : ∀ w ∈ args, w.Within P) :
    result s f args = result t f args := by
  cases args with
  | nil =>
    cases f with
    | error => simp only [result, joined_eq h ha]
    | max => simp only [result, extreme_eq h .max .gt ha]
    | min => simp only [result, extreme_eq h .min .lt ha]
    | _ => rfl
  | cons w rest =>
    cases f with
    | error => simp only [result, joined_eq h ha]
    | max => simp only [result, extreme_eq h .max .gt ha]
    | min => simp only [result, extreme_eq h .min .lt ha]
    | str => simp only [result, Value.display_eq h (ha w (.head _))]
    | repr => simp only [result, Value.repr_eq h (ha w (.head _))]
    | len => simp only [result, length_eq h (ha w (.head _))]
    | _ => rfl

theorem call_eq (f : Builtin) {args : List Value} (ha : ∀ w ∈ args, w.Within P) :
    f.call s args = f.call t args := by
  simp only [call, result_eq h f ha]

end

theorem best_mem {better : OrderOp} {w r : Value} {items : List Value} (hb : best better w items = .ok r) :
    r ∈ w :: items := by
  induction items generalizing w with
  | nil =>
    obtain rfl := Except.ok.inj hb
    exact .head _
  | cons x rest ih =>
    obtain ⟨b, _, hb⟩ := bind_ok_iff.mp hb
    have hm := ih hb
    cases b with
    | true => exact .tail _ hm
    | false =>
      rcases List.mem_cons.mp hm with rfl | hm
      · exact .head _
      · exact .tail _ (.tail _ hm)

theorem absValue_no_handle {w r : Value} (hr : absValue w = .ok r) : r.objectId? = none := by
  simp only [absValue] at hr
  split at hr <;> cases hr <;> rfl

theorem roundValue_no_handle {w r : Value} {places : Option Int} (hr : roundValue w places = .ok r) :
    r.objectId? = none := by
  simp only [roundValue] at hr
  split at hr
  · cases hr; rfl
  · cases hr; rfl
  · obtain ⟨i, _, rfl⟩ := map_ok_iff.mp hr
    rfl
  · cases hr; rfl
  · cases hr

theorem realPart_no_handle {w r : Value} (hr : realPart w = .ok r) : r.objectId? = none := by
  simp only [realPart] at hr
  split at hr <;> cases hr <;> rfl

theorem imagPart_no_handle {w r : Value} (hr : imagPart w = .ok r) : r.objectId? = none := by
  simp only [imagPart] at hr
  split at hr <;> cases hr <;> rfl

theorem mathCall_no_handle {fn : MathFn} {w r : Value} (hr : mathCall fn w = .ok r) :
    r.objectId? = none := by
  obtain ⟨x, _, hr⟩ := bind_ok_iff.mp hr
  dsimp only at hr
  split at hr <;> cases hr
  rfl

theorem exponential_no_handle {w r : Value} (hr : exponential w = .ok r) : r.objectId? = none := by
  obtain ⟨x, _, hr⟩ := bind_ok_iff.mp hr
  dsimp only at hr
  split at hr <;> cases hr
  rfl

theorem logarithmTo_no_handle {w r : Value} {rest : List Value} (hr : logarithmTo w rest = .ok r) :
    r.objectId? = none := by
  cases rest with
  | nil =>
    obtain ⟨x, _, rfl⟩ := map_ok_iff.mp hr
    rfl
  | cons base rest =>
    obtain ⟨x, _, hr⟩ := bind_ok_iff.mp hr
    obtain ⟨b, _, hr⟩ := bind_ok_iff.mp hr
    split at hr <;> cases hr
    rfl

theorem wholeBy_no_handle {round : Float → Float} {w r : Value} (hr : wholeBy round w = .ok r) :
    r.objectId? = none := by
  simp only [wholeBy] at hr
  split at hr
  · cases hr; rfl
  · obtain ⟨x, _, hr⟩ := bind_ok_iff.mp hr
    obtain ⟨i, _, hr⟩ := bind_ok_iff.mp hr
    cases hr
    rfl

/-- Only `max` and `min` can give a handle. -/
theorem result_no_handle {f : Builtin} {args : List Value} {r : Value} (hx : f ≠ .max) (hn : f ≠ .min)
    (hr : result s f args = .ok r) : r.objectId? = none := by
  cases args with
  | nil => cases f <;> first | contradiction | (cases hr; done) | (cases hr; rfl)
  | cons w rest =>
    cases f with
    | max => exact absurd rfl hx
    | min => exact absurd rfl hn
    | int | float | len =>
      obtain ⟨i, _, rfl⟩ := map_ok_iff.mp hr
      rfl
    | abs => exact absValue_no_handle hr
    | round =>
      obtain ⟨places, _, hr⟩ := bind_ok_iff.mp hr
      exact roundValue_no_handle hr
    | real => exact realPart_no_handle hr
    | imag => exact imagPart_no_handle hr
    | math fn => exact mathCall_no_handle hr
    | exp => exact exponential_no_handle hr
    | log => exact logarithmTo_no_handle hr
    | floor => exact wholeBy_no_handle hr
    | ceil => exact wholeBy_no_handle hr
    | error => cases hr
    | _ => cases hr; rfl

section

variable {Q : Value → Prop} {s : Store} {f : Builtin} {args : List Value} {r : Value}
  (he : ∀ id items, Q (.list id) → s.list? id = some items → ∀ w ∈ items, Q w)
include he

theorem candidates_all {items : List Value} (ha : ∀ w ∈ args, Q w) (hc : candidates s args = .ok items) :
    ∀ w ∈ items, Q w := by
  simp only [candidates] at hc
  split at hc
  · next id =>
    split at hc
    · next items' hl =>
      obtain rfl := Except.ok.inj hc
      exact he id items' (ha _ (.head _)) hl
    · cases hc
  · cases hc
  · obtain rfl := Except.ok.inj hc
    exact ha

/-- The result of a builtin is no handle, or one that the arguments lead to. -/
theorem call_all (hn : ∀ w : Value, w.objectId? = none → Q w) (ha : ∀ w ∈ args, Q w)
    (hr : f.call s args = .ok r) : Q r := by
  have hx : ∀ {g better}, extreme g better s args = .ok r → Q r := by
    intro g better hg
    obtain ⟨items, hc, hb⟩ := bind_ok_iff.mp hg
    have hi := candidates_all he ha hc
    split at hb
    · cases hb
    · exact hi r (best_mem hb)
  simp only [call] at hr
  split at hr
  · by_cases hmax : f = .max
    · subst hmax
      exact hx hr
    · by_cases hmin : f = .min
      · subst hmin
        exact hx hr
      · exact hn r (result_no_handle hmax hmin hr)
  · cases hr

end

theorem call_within {P : ObjId → Prop} {s t : Store} {f : Builtin} {args : List Value} {r : Value}
    (h : s.Alike P t) (ha : ∀ w ∈ args, w.Within P) (hr : f.call s args = .ok r) : r.Within P :=
  call_all (Q := (·.Within P)) (fun id items hi => h.element id items (hi id rfl))
    (fun _ => Value.within_of_objectId?_eq_none) ha hr

end Builtin
end CseMachine

import CseMachine.Proofs.Reference.Mirror
import CseMachine.Proofs.Safety.Steps

/-!
# Items that do what an evaluation does

Items on Control simulate an evaluation if, from any context that looks like the
world, the machine ends as the evaluation does: with its values on the Stash and
the items gone, below the marker after a return, in a step that fails with the
same error, or not within as many steps as calls are nested. Simulations compose
as evaluations do.
-/
namespace CseMachine.Reference

open Control (ofItems targets Cares belowMarker)

/-- The context looks like the world. -/
structure Shows (c : Context) (w : World) : Prop where
  memory : Mirror c.memory w
  output : c.output = w.output
  run : w.run = c.run
  predefined : c.predefined = false

/-- So many steps, none of which fails. -/
inductive Walk (v : Variant) : Nat → Context → Context → Prop
  | refl (c : Context) : Walk v 0 c c
  | step {n : Nat} {item : Item} {rest : List Item} {c d e : Context} (hc : c.control = ofItems (item :: rest))
      (he : v.execute item (c.taking rest) = .ok () d) (hw : Walk v n d e) : Walk v (n + 1) c e

/-- The next step fails with this error after this output. -/
def Fails (v : Variant) (c : Context) (e : EvalError) (output : String) : Prop :=
  ∃ item rest cause d, c.control = ofItems (item :: rest) ∧ v.execute item (c.taking rest) = .error cause d ∧
    e = cause.withSpan item.span ∧ d.output = output

variable {v : Variant} {α β : Type} {depth : Nat} {returns : Prop} {c d e : Context} {w : World}
  {items next rest : List Item} {taken stash : List Value} {push : α → List Value}

namespace Walk

theorem trans {n k : Nat} (h : Walk v n c d) (h' : Walk v k d e) : Walk v (n + k) c e := by
  induction h with
  | refl c => rwa [Nat.zero_add]
  | step hc he _ ih =>
    rw [Nat.add_right_comm]
    exact .step hc he (ih h')

/-- One step of a context that can run. -/
theorem running_step {item : Item} (hr : c.Running) (hc : c.control = ofItems (item :: rest)) :
    (c.taking rest).Runs (item :: rest) := by
  obtain ⟨items, hc', hruns⟩ := hr
  obtain rfl : items = item :: rest := by
    have hi := hc'.symm.trans hc
    exact congrArg (fun k : Control => k.items.items) hi
  exact hruns.congr rfl rfl rfl rfl

theorem running {n : Nat} (h : Walk v n c d) (hr : c.Running) : d.Running := by
  induction h with
  | refl => exact hr
  | step hc he _ ih =>
    have hsafe := Variant.execute_safe v (running_step hr hc) rfl
    rw [he] at hsafe
    exact ih hsafe

end Walk

/-- From the context the machine ends as the evaluation did, where `rest` is left on Control and what
`push` says goes on top of the Stash. -/
def Ends (v : Variant) (depth : Nat) (returns : Prop) (c : Context) (rest : List Item) (stash : List Value)
    (push : α → List Value) : EStateM.Result Exit World α → Prop
  | .ok a w => ∃ n d, Walk v n c d ∧ d.control = ofItems rest ∧ d.stash.items = push a ++ stash ∧ Shows d w ∧
      (Cares rest → d.memory.current = c.memory.current)
  | .error (.returned r) w => returns ∧ ∃ n d, Walk v n c d ∧ d.control = ofItems (belowMarker rest) ∧
      d.stash.items = r :: stash ∧ Shows d w
  | .error (.failed e) w => ∃ n d, Walk v n c d ∧ Fails v d e w.output
  | .error .tooDeep _ => ∃ n d, depth ≤ n ∧ Walk v n c d

/-- Steps before. -/
theorem Ends.after {n : Nat} {r : EStateM.Result Exit World α} (hw : Walk v n c d)
    (hcur : Cares rest → d.memory.current = c.memory.current) (h : Ends v depth returns d rest stash push r) :
    Ends v (n + depth) returns c rest stash push r := by
  cases r with
  | ok a w =>
    obtain ⟨k, e, hk, hc, hs, hshows, hcares⟩ := h
    exact ⟨n + k, e, hw.trans hk, hc, hs, hshows, fun hr => (hcares hr).trans (hcur hr)⟩
  | error exit w =>
    cases exit with
    | returned r =>
      obtain ⟨hr, k, e, hk, hrest⟩ := h
      exact ⟨hr, n + k, e, hw.trans hk, hrest⟩
    | failed f =>
      obtain ⟨k, e, hk, hf⟩ := h
      exact ⟨n + k, e, hw.trans hk, hf⟩
    | tooDeep =>
      obtain ⟨k, e, hle, hk⟩ := h
      exact ⟨n + k, e, Nat.add_le_add_left hle n, hw.trans hk⟩

theorem Ends.weaken {depth' : Nat} {r : EStateM.Result Exit World α} (hd : depth' ≤ depth)
    (h : Ends v depth returns c rest stash push r) : Ends v depth' returns c rest stash push r := by
  cases r with
  | ok a w => exact h
  | error exit w =>
    cases exit with
    | returned r => exact h
    | failed f => exact h
    | tooDeep =>
      obtain ⟨k, e, hle, hk⟩ := h
      exact ⟨k, e, Nat.le_trans hd hle, hk⟩

/-- The items simulate the evaluation, which takes the values on top of the Stash. -/
def Simulates (v : Variant) (depth : Nat) (returns : Prop) (taken : List Value) (items : List Item)
    (x : EnvId → Eval α) (push : α → List Value) : Prop :=
  ∀ c rest stash env w, c.Running → c.control = ofItems (items ++ rest) → c.stash.items = taken ++ stash →
    Shows c w → (Cares (items ++ rest) → c.memory.current = env) →
      Ends v depth returns c rest stash push (x env w)

/-! Items that lead out of no frame -/

/-- None of the items is a restore or a marker. -/
def Inner (items : List Item) : Prop := ∀ i ∈ items, i.isRestore = false ∧ i.isMarker = false

@[simp] theorem inner_nil : Inner [] := fun _ h => nomatch h

@[simp] theorem inner_cons {item : Item} :
    Inner (item :: rest) ↔ (item.isRestore = false ∧ item.isMarker = false) ∧ Inner rest := List.forall_mem_cons

@[simp] theorem inner_append : Inner (items ++ rest) ↔ Inner items ∧ Inner rest := List.forall_mem_append

theorem cares_append (h : Inner items) :
    Cares (items ++ rest) ↔ items.any Item.isEnvDependent = true ∨ Cares rest := by
  induction items with
  | nil => simp
  | cons item items ih =>
    obtain ⟨⟨hr, -⟩, hi⟩ := inner_cons.mp h
    simp only [List.cons_append, Cares, hr, true_and, ih hi, List.any_cons, Bool.or_eq_true, or_assoc]

theorem belowMarker_append (h : Inner items) : belowMarker (items ++ rest) = belowMarker rest := by
  induction items with
  | nil => rfl
  | cons item items ih =>
    obtain ⟨⟨-, hm⟩, hi⟩ := inner_cons.mp h
    rw [List.cons_append, belowMarker, hm]
    exact ih hi

namespace Simulates

variable {x : EnvId → Eval α} {f : α → EnvId → Eval β} {push' : β → List Value}

/-- Nothing to do. -/
theorem nil {a : α} (ha : taken = push a) : Simulates v depth returns taken [] (fun _ => pure a) push :=
  fun c _ _ _ _ _ hc hs hw _ => ⟨0, c, .refl c, hc, ha ▸ hs, hw, fun _ => rfl⟩

/-- One evaluation after the other. -/
theorem bind (hi : Inner items) (hn : Inner next) (h : Simulates v depth returns taken items x push)
    (hf : ∀ a, (∃ env w w', x env w = .ok a w') → Simulates v depth returns (push a) next (f a) push') :
    Simulates v depth returns taken (items ++ next) (fun env => x env >>= fun a => f a env) push' := by
  intro c rest stash env w hr hc hs hw hcur
  rw [List.append_assoc] at hc hcur
  have hx := h c (next ++ rest) stash env w hr hc hs hw hcur
  cases hxw : x env w with
  | ok a w' =>
    rw [hxw] at hx
    obtain ⟨n, d, hwalk, hd, hsd, hshows, hkeep⟩ := hx
    have hcares : Cares (next ++ rest) → Cares (items ++ (next ++ rest)) :=
      fun hn => (cares_append hi).mpr (.inr hn)
    have hnext := hf a ⟨env, w, w', hxw⟩ d rest stash env w' (hwalk.running hr) hd hsd hshows
      fun hc' => (hkeep hc').trans (hcur (hcares hc'))
    have hafter := hnext.after hwalk fun hc' => hkeep ((cares_append hn).mpr (.inr hc'))
    show Ends v depth returns c rest stash push' ((x env >>= fun a => f a env) w)
    rw [bind_of_ok hxw]
    exact hafter.weaken (Nat.le_add_left _ _)
  | error exit w' =>
    rw [hxw] at hx
    show Ends v depth returns c rest stash push' ((x env >>= fun a => f a env) w)
    rw [bind_of_error hxw]
    cases exit with
    | returned r =>
      obtain ⟨hret, n, d, hwalk, hd, hrest⟩ := hx
      exact ⟨hret, n, d, hwalk, belowMarker_append hn ▸ hd, hrest⟩
    | failed e => exact hx
    | tooDeep => exact hx

theorem mono {q : Prop} (hr : returns → q) (h : Simulates v depth returns taken items x push) :
    Simulates v depth q taken items x push := by
  intro c rest stash env w hrun hc hs hw hcur
  have hx := h c rest stash env w hrun hc hs hw hcur
  cases hxw : x env w with
  | ok a w' =>
    rw [hxw] at hx
    exact hx
  | error exit w' =>
    rw [hxw] at hx
    cases exit with
    | returned r => exact ⟨hr hx.1, hx.2⟩
    | failed e => exact hx
    | tooDeep => exact hx

/-- Values below those that are taken stay where they are. -/
theorem under (h : Simulates v depth False taken items x push) (extra : List Value) :
    Simulates v depth returns (taken ++ extra) items x fun a => push a ++ extra := by
  intro c rest stash env w hr hc hs hw hcur
  rw [List.append_assoc] at hs
  have hx := h c rest (extra ++ stash) env w hr hc hs hw hcur
  cases hxw : x env w with
  | ok a w' =>
    rw [hxw] at hx
    obtain ⟨n, d, hwalk, hd, hsd, hrest⟩ := hx
    exact ⟨n, d, hwalk, hd, by rw [hsd, List.append_assoc], hrest⟩
  | error exit w' =>
    rw [hxw] at hx
    cases exit with
    | returned r => exact hx.1.elim
    | failed e => exact hx
    | tooDeep => exact hx

end Simulates

/-! Single items -/

/-- How a step compares with an evaluation: it leaves the items and values, or fails as the evaluation does. -/
def Steps (v : Variant) (item : Item) (c : Context) (rest : List Item) (stash : List Value)
    (items : α → List Item) (push : α → List Value) : EStateM.Result Exit World α → Prop
  | .ok a w => ∃ d, v.execute item c = .ok () d ∧ d.control = ofItems (items a ++ rest) ∧
      d.stash.items = push a ++ stash ∧ Shows d w ∧ d.memory.current = c.memory.current
  | .error (.failed e) w => ∃ cause d, v.execute item c = .error cause d ∧ e = cause.withSpan item.span ∧
      d.output = w.output
  | .error _ _ => False

/-- Executing the item is the evaluation, after which the items are left to do. -/
def Performs (v : Variant) (taken : List Value) (item : Item) (x : EnvId → Eval α) (items : α → List Item)
    (push : α → List Value) : Prop :=
  ∀ c rest stash env w, c.Runs (item :: rest) → c.control = ofItems rest → c.stash.items = taken ++ stash →
    Shows c w → (Cares (item :: rest) → c.memory.current = env) →
      Steps v item c rest stash items push (x env w)

theorem Shows.taking (h : Shows c w) (rest : List Item) : Shows (c.taking rest) w :=
  ⟨h.memory, h.output, h.run, h.predefined⟩

/-- What looks at the environment after an item also does so before it. -/
theorem cares_cons {item : Item} (hr : item.isRestore = false) (h : Cares rest) : Cares (item :: rest) :=
  ⟨hr, .inr h⟩

variable {x : EnvId → Eval α} {item : Item}

/-- An item that leaves others behind, which look at the environment only if it does. -/
theorem Performs.andThen {next : α → List Item} {f : α → EnvId → Eval β} {push' : β → List Value}
    (hr : item.isRestore = false) (h : Performs v taken item x next push) (hn : ∀ a, Inner (next a))
    (hd : ∀ a, (next a).any Item.isEnvDependent = true → item.isEnvDependent = true)
    (hf : ∀ a, (∃ env w w', x env w = .ok a w') → Simulates v depth returns (push a) (next a) (f a) push') :
    Simulates v depth returns taken [item] (fun env => x env >>= fun a => f a env) push' := by
  intro c rest stash env w hr' hc hs hw hcur
  have hx := h (c.taking rest) rest stash env w (Walk.running_step hr' hc) rfl hs (hw.taking rest) hcur
  show Ends v depth returns c rest stash push' ((x env >>= fun a => f a env) w)
  cases hxw : x env w with
  | ok a w' =>
    rw [hxw] at hx
    obtain ⟨d, he, hcd, hsd, hshows, hkeep⟩ := hx
    have hwalk : Walk v 1 c d := .step hc he (.refl d)
    have hcares : Cares (next a ++ rest) → Cares (item :: rest) := by
      intro hcares
      rcases (cares_append (hn a)).mp hcares with hi | hrest
      · exact ⟨hr, .inl (hd a hi)⟩
      · exact cares_cons hr hrest
    have hnext := hf a ⟨env, w, w', hxw⟩ d rest stash env w' (hwalk.running hr') hcd hsd hshows
      fun hc' => hkeep.trans (hcur (hcares hc'))
    rw [bind_of_ok hxw]
    exact (hnext.after hwalk fun _ => hkeep).weaken (Nat.le_add_left _ _)
  | error exit w' =>
    rw [hxw] at hx
    rw [bind_of_error hxw]
    cases exit with
    | failed e =>
      obtain ⟨cause, d, he, hcause, hout⟩ := hx
      exact ⟨0, c, .refl c, item, rest, cause, d, hc, he, hcause, hout⟩
    | returned r => exact hx.elim
    | tooDeep => exact hx.elim

/-- A single item that does all there is to do. -/
theorem Performs.simulates (hr : item.isRestore = false) (h : Performs v taken item x (fun _ => []) push) :
    Simulates v depth returns taken [item] x push := by
  have hs : Simulates v depth returns taken [item] (fun env => x env >>= fun a => pure a) push :=
    h.andThen hr (fun _ => inner_nil) (fun _ h => nomatch h) fun _ _ => .nil rfl
  simpa only [bind_pure] using hs

end CseMachine.Reference

import CseMachine.Proofs.Safety.Nodes

/-!
# Instructions are safe

An instruction finds its operands on the Stash, the name it declares a value for
in the current frame, and the environment it restores among the active ones.
-/
namespace CseMachine

theorem List.exists_reverse_append {α : Type} {l : List α} {base count : Nat} (h : l.length = base + count) :
    ∃ top rest : List α, l = top.reverse ++ rest ∧ top.length = count ∧ rest.length = base := by
  refine ⟨(l.take count).reverse, l.drop count, ?_, ?_, ?_⟩
  · rw [List.reverse_reverse, List.take_append_drop]
  · rw [List.length_reverse, List.length_take]
    omega
  · rw [List.length_drop]
    omega

theorem Context.exists_operand {c : Context} {base : Nat} (h : c.height = base + 1) :
    ∃ w stash, c.stash.items = [w].reverse ++ stash ∧ stash.length = base := by
  obtain ⟨top, stash, hi, ht, hl⟩ := List.exists_reverse_append h
  obtain ⟨w, rfl⟩ := List.length_eq_one_iff.mp ht
  exact ⟨w, stash, hi, hl⟩

theorem Context.exists_operandPair {c : Context} {base : Nat} (h : c.height = base + 2) :
    ∃ x y stash, c.stash.items = [x, y].reverse ++ stash ∧ stash.length = base := by
  obtain ⟨top, stash, hi, ht, hl⟩ := List.exists_reverse_append h
  obtain ⟨x, y, rfl⟩ := List.length_eq_two.mp ht
  exact ⟨x, y, stash, hi, hl⟩

/-- The targets left once the first is current lie below it. -/
theorem Control.targets_dropWhile {target : EnvId} {targets active : List EnvId}
    (h : (target :: targets).Sublist active.tail) :
    target ∈ active ∧ targets.Sublist (active.dropWhile (· ≠ target)).tail := by
  have hdrop : ∀ ids : List EnvId, (target :: targets).Sublist ids →
      targets.Sublist (ids.dropWhile (· ≠ target)).tail := by
    intro ids hs
    induction ids with
    | nil => cases hs
    | cons id ids ih =>
      rw [List.dropWhile_cons]
      split
      · next hne =>
        have hid : id ≠ target := by simpa using hne
        cases hs with
        | cons _ hs => exact ih hs
        | cons_cons => exact absurd rfl hid
      · cases hs with
        | cons _ hs => exact List.sublist_of_cons_sublist hs
        | cons_cons _ hs => exact hs
  cases active with
  | nil => cases h
  | cons id rest =>
    refine ⟨.tail id (h.subset (.head _)), ?_⟩
    rw [List.dropWhile_cons]
    split
    · exact hdrop rest h
    · exact List.sublist_of_cons_sublist h

namespace Variant

open Context (Safe)

variable (v : Variant) {c : Context} {ret : Option Nat} {env : Option EnvId} {rest : List Item} {span : Span}
  {base : Nat}

theorem marker_safe {ret' : Option Nat} (h : c.Pending ret' none c.height rest) :
    Safe (v.execute (.instr .marker span) c) := h.running

theorem reset_safe (h : c.Pending (some c.height) env c.height rest) :
    Safe (v.execute (.instr .reset span) c) := by
  obtain ⟨ret', hf⟩ := h.fits.belowMarker
  have hu : c.control.unwind = .ofItems (Control.belowMarker rest) := by
    rw [h.control, Control.unwind_ofItems]
  have ht : (Control.targets (Control.belowMarker rest)).Sublist c.memory.active.tail :=
    (Control.targets_belowMarker rest).trans h.targets
  exact ⟨_, hu, h.sound.withControl _, ht, .fits ret' none (fun _ he => nomatch he) hf⟩

/-- Restoring an active environment makes it current and changes nothing else that evaluation can see. -/
theorem execute_restore_active {target : EnvId} (h : target ∈ c.memory.active) (span : Span) :
    ∃ m below, v.execute (.instr (.restore target) span) c = .ok () { c with memory := m } ∧
      Memory.AgreeOn .all { c.memory with active := c.memory.active.dropWhile (· ≠ target) } m ∧
      m.active = target :: below := by
  obtain ⟨m, hk, ha⟩ := Context.keepResult_eq { c with
    memory := { c.memory with active := c.memory.active.dropWhile (· ≠ target) } } target
    (c.memory.active.takeWhile (· ≠ target))
  obtain ⟨below, hdrop⟩ := Memory.dropWhile_eq_cons h
  refine ⟨m, below, ?_, ha, ha.active.symm.trans hdrop⟩
  rw [execute_restore v (Memory.restore_ok h), hk]

theorem restore_safe {target : EnvId} (hs : c.Sound) (hc : c.control = .ofItems rest)
    (ht : (target :: Control.targets rest).Sublist c.memory.active.tail)
    (hf : Fits c.memory ret (some target) c.height rest) :
    Safe (v.execute (.instr (.restore target) span) c) := by
  obtain ⟨hmem, hbelow⟩ := Control.targets_dropWhile ht
  obtain ⟨m, below, he, ha, hactive⟩ := execute_restore_active v hmem span
  rw [he]
  have hdrop : c.memory.active.dropWhile (· ≠ target) = target :: below := ha.active.trans hactive
  obtain ⟨hs', hg⟩ := hs.memory.withActive _ (hdrop ▸ List.cons_ne_nil _ _) fun id hi =>
    hs.memory.activePresent id ((List.dropWhile_sublist _).subset hi)
  obtain ⟨hs'', hg'⟩ := hs'.congr ha
  have hp : Context.Pending { c with memory := m } ret (some target) c.height rest := by
    refine ⟨hs.withMemory hs'' (hg.trans hg'), hc, ?_, ?_, hf.mono (hg.trans hg')⟩
    · show (Control.targets rest).Sublist m.active.tail
      rw [← ha.active]
      exact hbelow
    · rintro e he
      cases he
      show m.current = target
      simp only [Memory.current]
      rw [hactive]
      rfl
  exact hp.running

/-- What is left once the operands are taken. -/
theorem operands_taken {given : Nat} {top stash : List Value} (h : c.Pending ret env (base + given) rest)
    (hi : c.stash.items = top ++ stash) (hl : stash.length = base) :
    { c with stash := ⟨stash⟩ }.Pending ret env ({ c with stash := ⟨stash⟩ }.height + given) rest := by
  subst hl
  exact h.drop hi

theorem assignment_safe {name : String} {constant declaration : Bool} (hb : c.height = base + 1)
    (hs : declaration = true → c.memory.Declares env name) (h : c.Pending ret env (base + 1) rest) :
    Safe (v.execute (.instr (.assignment name constant declaration) span) c) := by
  obtain ⟨w, stash, hi, hl⟩ := Context.exists_operand hb
  obtain ⟨hnamed, hg⟩ := h.sound.memory.named w name
  have hactive : (c.memory.named w name).active = c.memory.active := by cases w <;> rfl
  have hw := (h.sound.values w (hi ▸ .head _)).mono hg.store
  have hp := (operands_taken h hi hl).withMemory hnamed hg hactive
  have hd : declaration = true → ∃ e, (c.memory.named w name).environment? (c.memory.named w name).current =
      some e ∧ (e.lookup? name).isSome := by
    intro hdecl
    obtain ⟨id, e, he, hf, hx⟩ := (hs hdecl).mono hg
    have hcur := hp.current id he
    exact ⟨e, hcur ▸ hf, hx⟩
  rcases hnamed.bindName hw constant hd with ⟨m, hm, hs', hg', ha⟩ | ⟨e, he, hr⟩
  · rw [execute_assignment v hi hm]
    exact (hp.withMemory hs' hg' ha).pushValue trivial
  · rw [execute_assignment_error v hi he]
    exact hr

theorem branch_safe {yes : Node} {no : Option Node} (hb : c.height = base + 1)
    (hy : yes.Scoped (c.memory.Declares env) (ret = some (base + 1)) true)
    (hn : OptionScoped (c.memory.Declares env) (ret = some (base + 1)) true no)
    (h : c.Pending ret env (base + 1) rest) : Safe (v.execute (.instr (.branch yes no) span) c) := by
  obtain ⟨w, stash, hi, hl⟩ := Context.exists_operand hb
  have hp := operands_taken h hi hl
  subst hl
  by_cases hw : ∃ taken, w = .bool taken
  · obtain ⟨taken, rfl⟩ := hw
    cases hc : chosen taken yes no with
    | none =>
      rw [execute_branch_none v hi hc]
      exact hp.pushValue (w := .none) trivial
    | some n =>
      rw [execute_branch v hi hc]
      have hs : n.Scoped (c.memory.Declares env) (ret = some (stash.length + 1)) true := by
        simp only [chosen] at hc
        split at hc
        · cases hc
          exact hy
        · exact optionScoped_iff.mp hn n hc
      have hf : Fits c.memory ret env stash.length ([.node n true] ++ rest) := ⟨hs, hp.fits⟩
      exact (hp.pushAll v rfl hf).running
  · rw [execute_branch_error v hi fun b hb => hw ⟨b, hb⟩]
    trivial

theorem list_safe {count : Nat} (hb : c.height = base + count) (h : c.Pending ret env (base + 1) rest) :
    Safe (v.execute (.instr (.list count) span) c) := by
  obtain ⟨items, stash, hi, rfl, hl⟩ := List.exists_reverse_append hb
  have hr : ∀ w ∈ items, w.Resolves c.memory.store := fun w hw =>
    h.sound.values w (hi ▸ List.mem_append_left _ (List.mem_reverse.mpr hw))
  obtain ⟨m, hm, ha, hs, hg⟩ := h.sound.memory.alloc (.list items) (fun _ he w hw => by cases he; exact hr w hw)
    fun _ he => nomatch he
  rw [execute_list v hi hm]
  have hget := Memory.get?_alloc c.memory.store c.memory.current (.list items) ⟨c.memory.store.next⟩
  rw [if_pos rfl] at hget
  have hlist := (ha.list?_eq trivial).symm.trans (Store.list?_eq_some.mpr ⟨_, hget⟩)
  have hp := (operands_taken h hi hl).withMemory hs hg ha.active.symm
  exact hp.pushValue (Option.isSome_iff_exists.mpr ⟨_, hlist⟩)

theorem unary_safe (op : UnaryOp) (hb : c.height = base + 1) (h : c.Pending ret env (base + 1) rest) :
    Safe (v.execute (.instr (.unary op) span) c) := by
  obtain ⟨w, stash, hi, hl⟩ := Context.exists_operand hb
  rw [execute_unary v op hi]
  exact (operands_taken h hi hl).answer (Value.unary_plain op w).regular fun r hr =>
    Value.resolves_of_no_handle (Value.unary_no_handle hr)

theorem binary_safe (op : BinaryOp) (hb : c.height = base + 2) (h : c.Pending ret env (base + 1) rest) :
    Safe (v.execute (.instr (.binary op) span) c) := by
  obtain ⟨x, y, stash, hi, hl⟩ := Context.exists_operandPair hb
  rw [execute_binary v op hi]
  exact (operands_taken h hi hl).answer (Value.binary_plain op x y).regular fun r hr =>
    Value.resolves_of_no_handle (Value.binary_no_handle hr)

theorem subscript_safe (hb : c.height = base + 2) (h : c.Pending ret env (base + 1) rest) :
    Safe (v.execute (.instr .subscript span) c) := by
  obtain ⟨x, y, stash, hi, hl⟩ := Context.exists_operandPair hb
  have hx := h.sound.values x (hi ▸ by simp)
  rw [execute_subscript v hi]
  exact (operands_taken h hi hl).answer (Value.subscript_plain y hx).regular fun r =>
    h.sound.memory.subscript_resolves hx

theorem pop_safe (hb : c.height = base + 1) (h : c.Pending ret env base rest) :
    Safe (v.execute (.instr .pop span) c) := by
  obtain ⟨w, stash, hi, hl⟩ := Context.exists_operand hb
  rw [execute_pop v hi]
  have hp : c.Pending ret env (base + 0) rest := h
  exact (operands_taken hp hi hl).running

end Variant
end CseMachine

import CseMachine.Proofs.Surface

/-!
# Names in a scope

Reading a body line by line, a scope knows the lines behind it only. If the names of
the body are legal, that is enough: when a name is assigned, the scope knows
whether it is outer, since a line that takes it from outside comes first.
-/
namespace CseMachine.Surface

open Parse (Scope)

variable {foreign : String → Bool} {params : List String} {s : Scope} {b : Binding} {bs cs done : List Binding}
  {x : String}

/-- The scope behind a line that has to do with a name. -/
def after (s : Scope) : Binding → Scope
  | .assigned x => (s.bind x).2
  | .outer x => { s with nonlocals := x :: s.nonlocals }

def follow (s : Scope) (bs : List Binding) : Scope := bs.foldl after s

/-- The line is accepted in this scope, and makes names that are not foreign. -/
def Allowed (foreign : String → Bool) (s : Scope) : Binding → Prop
  | .assigned x => s.isOuter x = foreign x
  | .outer x => x ∉ s.params ∧ x ∉ s.declared

/-- All lines are allowed, one behind the other. -/
def Suits (foreign : String → Bool) (s : Scope) : List Binding → Prop
  | [] => True
  | b :: bs => Allowed foreign s b ∧ Suits foreign (after s b) bs

theorem follow_append (s : Scope) (bs cs : List Binding) : follow s (bs ++ cs) = follow (follow s bs) cs :=
  List.foldl_append

theorem suits_append : Suits foreign s (bs ++ cs) ↔ Suits foreign s bs ∧ Suits foreign (follow s bs) cs := by
  induction bs generalizing s with
  | nil => simp [Suits, follow]
  | cons b bs ih => simp [Suits, follow, ih, and_assoc]

@[simp] theorem isFunction_bind (s : Scope) (x : String) : (s.bind x).2.isFunction = s.isFunction := by
  unfold Scope.bind
  split
  · rfl
  · split <;> rfl

@[simp] theorem isFunction_after (s : Scope) (b : Binding) : (after s b).isFunction = s.isFunction := by
  cases b with
  | assigned x => exact isFunction_bind s x
  | outer x => rfl

@[simp] theorem isFunction_follow (s : Scope) (bs : List Binding) : (follow s bs).isFunction = s.isFunction := by
  induction bs generalizing s with
  | nil => rfl
  | cons b bs ih => rw [follow, List.foldl_cons, ← follow, ih, isFunction_after]

/-- An assignment declares a name that is not outer. -/
theorem bind_eq (s : Scope) (x : String) : s.bind x = (!s.isOuter x, after s (.assigned x)) := by
  refine Prod.ext ?_ rfl
  unfold Scope.bind
  split
  · next h => simp [h]
  · next h => split <;> simp [h]

/-- The names that lines make. -/
def made (foreign : String → Bool) (bs : List Binding) : List String :=
  ((bs.filterMap Binding.assigned?).filter (!foreign ·)).eraseDups

/-- What a scope knows behind these lines. -/
structure Knows (foreign : String → Bool) (params : List String) (done : List Binding) (s : Scope) : Prop where
  params : s.params = params
  nonlocals : ∀ x, x ∈ s.nonlocals ↔ x ∈ outerNames done
  declared : s.declared = made foreign done

theorem mem_outerNames : x ∈ outerNames bs ↔ Binding.outer x ∈ bs := by
  rw [outerNames, List.mem_filterMap]
  constructor
  · rintro ⟨b, hb, hx⟩
    cases b with
    | assigned y => cases hx
    | outer y =>
      cases hx
      exact hb
  · intro h
    exact ⟨_, h, rfl⟩

theorem made_append_outer : made foreign (bs ++ [.outer x]) = made foreign bs := by
  have hnone : Binding.assigned? (.outer x) = none := rfl
  rw [made, List.filterMap_append, List.filterMap_cons_none hnone, List.filterMap_nil, List.append_nil, made]

theorem made_append_assigned : made foreign (bs ++ [.assigned x]) =
    (((bs.filterMap Binding.assigned?) ++ [x]).filter (!foreign ·)).eraseDups := by
  have hsome : Binding.assigned? (.assigned x) = some x := rfl
  rw [made, List.filterMap_append, List.filterMap_cons_some hsome, List.filterMap_nil]

theorem made_append_foreign (h : foreign x = true) : made foreign (bs ++ [.assigned x]) = made foreign bs := by
  rw [made_append_assigned, List.filter_append, made]
  simp [h]

theorem eraseDups_concat_of_mem {l : List String} (hx : x ∈ l) : (l ++ [x]).eraseDups = l.eraseDups := by
  simp [List.eraseDups_append, List.removeAll, hx]

theorem eraseDups_concat_of_not_mem {l : List String} (hx : x ∉ l) : (l ++ [x]).eraseDups = l.eraseDups ++ [x] := by
  simp [List.eraseDups_append, List.removeAll, hx, List.eraseDups_cons]

theorem made_append_again (hx : x ∈ made foreign bs) : made foreign (bs ++ [.assigned x]) = made foreign bs := by
  rw [made, List.mem_eraseDups] at hx
  have hnew : [x].filter (!foreign ·) = [x] := by simpa using (List.mem_filter.mp hx).2
  rw [made_append_assigned, List.filter_append, hnew, eraseDups_concat_of_mem hx, made]

theorem made_append_new (hf : foreign x = false) (hx : x ∉ made foreign bs) :
    made foreign (bs ++ [.assigned x]) = made foreign bs ++ [x] := by
  rw [made, List.mem_eraseDups] at hx
  have hnew : [x].filter (!foreign ·) = [x] := by simpa using hf
  rw [made_append_assigned, List.filter_append, hnew, eraseDups_concat_of_not_mem hx, made]

/-- A name that is outer and assigned was taken from outside before. -/
theorem NamesLegal.taken (h : NamesLegal params (done ++ .assigned x :: bs))
    (hx : x ∈ outerNames (done ++ .assigned x :: bs)) : x ∈ outerNames done := by
  have hfirst := (h x hx).2
  rw [List.find?_append] at hfirst
  cases hdone : done.find? (·.name == x) with
  | none =>
    have hname : (Binding.assigned x).name == x := beq_self_eq_true x
    rw [hdone, Option.none_or, List.find?_cons, hname] at hfirst
    cases hfirst
  | some b =>
    rw [hdone, Option.some_or, Option.some.injEq] at hfirst
    rw [hfirst] at hdone
    exact mem_outerNames.mpr (List.mem_of_find?_eq_some hdone)

/-- What is outer in a body is known as such when it is assigned. -/
theorem Knows.isOuter_eq (hl : NamesLegal params (done ++ .assigned x :: bs))
    (h : Knows foreign params done s) : s.isOuter x = isOuter params (done ++ .assigned x :: bs) x := by
  have htaken : x ∈ s.nonlocals ↔ x ∈ outerNames (done ++ .assigned x :: bs) := by
    rw [h.nonlocals]
    refine ⟨fun hx => ?_, hl.taken⟩
    rw [mem_outerNames] at hx ⊢
    exact List.mem_append_left _ hx
  rw [Bool.eq_iff_iff]
  simp only [Scope.isOuter, isOuter, h.params, Bool.or_eq_true, List.contains_iff_mem, htaken]

theorem Knows.step (hl : NamesLegal params (done ++ b :: bs)) (h : Knows (isOuter params (done ++ b :: bs)) params done s) :
    Allowed (isOuter params (done ++ b :: bs)) s b ∧
      Knows (isOuter params (done ++ b :: bs)) params (done ++ [b]) (after s b) := by
  cases b with
  | assigned x =>
    have houter := h.isOuter_eq hl
    refine ⟨houter, ?_⟩
    have hnames : ∀ y, y ∈ s.nonlocals ↔ y ∈ outerNames (done ++ [.assigned x]) := by
      intro y
      rw [h.nonlocals, mem_outerNames, mem_outerNames]
      simp
    have hmade := h.declared
    rw [after, Scope.bind]
    -- the name belongs to another body, or is declared already, or is new
    split
    · next hx =>
      refine ⟨h.params, hnames, ?_⟩
      rw [made_append_foreign (houter ▸ hx), hmade]
    · next hx =>
      split
      · next hd =>
        refine ⟨h.params, hnames, ?_⟩
        rw [made_append_again (hmade ▸ List.contains_iff_mem.mp hd), hmade]
      · next hd =>
        refine ⟨h.params, hnames, ?_⟩
        rw [made_append_new (houter ▸ eq_false_of_ne_true hx), hmade]
        rw [← hmade]
        exact fun hm => hd (List.contains_iff_mem.mpr hm)
  | outer x =>
    have hx : x ∈ outerNames (done ++ .outer x :: bs) := mem_outerNames.mpr (by simp)
    refine ⟨⟨?_, ?_⟩, h.params, ?_, ?_⟩
    · rw [h.params]
      exact (hl x hx).1
    · rw [h.declared, made, List.mem_eraseDups, List.mem_filter]
      rintro ⟨-, hforeign⟩
      simp [isOuter, hx] at hforeign
    · intro y
      rw [after, List.mem_cons, h.nonlocals, mem_outerNames, mem_outerNames]
      simp [or_comm]
    · rw [made_append_outer]
      exact h.declared

theorem Knows.suits (hl : NamesLegal params (done ++ bs)) (h : Knows (isOuter params (done ++ bs)) params done s) :
    Suits (isOuter params (done ++ bs)) s bs ∧ Knows (isOuter params (done ++ bs)) params (done ++ bs) (follow s bs) := by
  induction bs generalizing done s with
  | nil =>
    refine ⟨trivial, ?_⟩
    simpa [follow] using h
  | cons b bs ih =>
    obtain ⟨hallowed, hknows⟩ := h.step hl
    rw [List.append_cons] at hl hallowed hknows ⊢
    obtain ⟨hsuits, hfollow⟩ := ih hl hknows
    exact ⟨⟨hallowed, hsuits⟩, hfollow⟩

/-- A scope that knows nothing yet suits a body with legal names, and comes to list the names that it
makes. -/
theorem NamesLegal.suits (hl : NamesLegal s.params bs) (hn : s.nonlocals = []) (hd : s.declared = []) :
    Suits (isOuter s.params bs) s bs ∧ (follow s bs).declared = madeNames s.params bs := by
  have hknows : Knows (isOuter s.params bs) s.params [] s := ⟨rfl, by simp [hn, outerNames], hd⟩
  obtain ⟨hsuits, hfollow⟩ := @Knows.suits _ _ _ [] hl hknows
  exact ⟨hsuits, hfollow.declared⟩

end CseMachine.Surface

import CseMachine.Proofs.Scoping.Written
import CseMachine.Proofs.Surface.Scopes

/-!
# The parser resolves scopes

A reader knows the lines behind it only, and marks a statement by them. That is
enough: a name that is declared stays so, and a name that is assigned before a line
takes it from outside is refused. So the marks are right in the scope at the end of the
body, which has all names in view, and every program that is parsed is resolved.
-/
namespace CseMachine.Parse

open Written
open Surface (Binding after follow made isFunction_follow follow_append bind_eq)

variable {s s' t : Scope} {b : Binding} {bs cs done : List Binding} {x : String}

/-! Scopes -/

namespace Scope

/-- No declared name is bound outside the body. -/
def Apart (s : Scope) : Prop := ∀ x ∈ s.declared, s.isOuter x = false

/-- Reading on keeps what is known of names. -/
structure Within (s t : Scope) : Prop where
  declared : ∀ x ∈ s.declared, x ∈ t.declared
  outer : ∀ x, s.isOuter x = true → t.isOuter x = true

theorem Within.refl (s : Scope) : s.Within s := ⟨fun _ => id, fun _ => id⟩

theorem Within.trans (h : s.Within s') (h' : s'.Within t) : s.Within t :=
  ⟨fun x hx => h'.declared x (h.declared x hx), fun x hx => h'.outer x (h.outer x hx)⟩

theorem after_cases (s : Scope) (x : String) : s.isOuter x = true ∧ after s (.assigned x) = s ∨
    s.isOuter x = false ∧ x ∈ s.declared ∧ after s (.assigned x) = s ∨
    s.isOuter x = false ∧ x ∉ s.declared ∧ after s (.assigned x) = { s with declared := s.declared ++ [x] } := by
  simp only [after, bind]
  cases ho : s.isOuter x with
  | true => exact .inl ⟨rfl, rfl⟩
  | false =>
    by_cases hd : x ∈ s.declared
    · exact .inr (.inl ⟨rfl, hd, by simp [hd]⟩)
    · exact .inr (.inr ⟨rfl, hd, by simp [hd]⟩)

theorem within_after (s : Scope) (b : Binding) : s.Within (after s b) := by
  cases b with
  | assigned x =>
    rcases s.after_cases x with ⟨-, h⟩ | ⟨-, -, h⟩ | ⟨-, -, h⟩
    · exact h.symm ▸ .refl s
    · exact h.symm ▸ .refl s
    · exact h.symm ▸ ⟨fun y hy => List.mem_append_left _ hy, fun _ => id⟩
  | outer x =>
    refine ⟨fun _ => id, fun y hy => ?_⟩
    simp only [isOuter, after, List.contains_cons, Bool.or_eq_true] at hy ⊢
    exact hy.imp_right .inr

theorem within_follow (s : Scope) (bs : List Binding) : s.Within (follow s bs) := by
  induction bs generalizing s with
  | nil => exact .refl s
  | cons b bs ih => exact (s.within_after b).trans (ih _)

/-- Behind an assignment its name is declared unless it is outer. -/
theorem bind_within (h : (s.bind x).2.Within t) (ht : t.Apart) : (s.bind x).1 = true ↔ x ∈ t.declared := by
  rw [bind_eq] at h ⊢
  rcases s.after_cases x with ⟨ho, ha⟩ | ⟨ho, hd, ha⟩ | ⟨ho, -, ha⟩
  · rw [ho]
    refine ⟨nofun, fun hx => ?_⟩
    have houter := h.outer x (by rw [ha, ho])
    rw [ht x hx] at houter
    cases houter
  · rw [ho]
    exact ⟨fun _ => h.declared x (by rw [ha]; exact hd), fun _ => rfl⟩
  · rw [ho]
    exact ⟨fun _ => h.declared x (by rw [ha]; exact List.mem_append_right _ (.head _)), fun _ => rfl⟩

theorem Apart.assigned (h : s.Apart) (x : String) : (after s (.assigned x)).Apart := by
  rcases s.after_cases x with ⟨-, ha⟩ | ⟨-, -, ha⟩ | ⟨ho, -, ha⟩
  · exact ha.symm ▸ h
  · exact ha.symm ▸ h
  · rw [ha]
    intro y hy
    rcases List.mem_append.mp hy with hy | hy
    · exact h y hy
    · rw [List.mem_singleton.mp hy]
      exact ho

theorem Apart.outer (h : s.Apart) (hx : x ∉ s.declared) : (after s (.outer x)).Apart := by
  intro y hy
  have hne : y ≠ x := fun he => hx (he ▸ hy)
  have ho := h y hy
  simp only [isOuter, after, List.contains_cons, Bool.or_eq_false_iff] at ho ⊢
  exact ⟨ho.1, by simpa using hne, ho.2⟩

/-! The names of a body -/

theorem isOuter_follow (s : Scope) (bs : List Binding) (x : String) :
    (follow s bs).isOuter x = (s.isOuter x || (Surface.outerNames bs).contains x) := by
  induction bs generalizing s with
  | nil => simp [follow, Surface.outerNames]
  | cons b bs ih =>
    have hstep : (follow s (b :: bs)).isOuter x = (follow (after s b) bs).isOuter x := rfl
    rw [hstep, ih]
    cases b with
    | assigned y =>
      have hs : (after s (.assigned y)).isOuter x = s.isOuter x := by
        rcases s.after_cases y with ⟨-, ha⟩ | ⟨-, -, ha⟩ | ⟨-, -, ha⟩ <;> simp [ha, isOuter]
      rw [hs]
      rfl
    | outer y =>
      simp [isOuter, after, Surface.outerNames, Binding.outer?, Bool.or_assoc, Bool.or_left_comm]

/-- A line adds to the declared names those that it makes, as the scope at the end knows. -/
theorem declared_after (hs : s.declared = made t.isOuter done) (hw : (after s b).Within t) (ht : t.Apart) :
    (after s b).declared = made t.isOuter (done ++ [b]) := by
  cases b with
  | outer x =>
    rw [Surface.made_append_outer]
    exact hs
  | assigned x =>
    rcases s.after_cases x with ⟨ho, ha⟩ | ⟨-, hd, ha⟩ | ⟨-, hd, ha⟩
    · rw [Surface.made_append_foreign (hw.outer x (by rw [ha, ho])), ha, hs]
    · rw [Surface.made_append_again (hs ▸ hd), ha, hs]
    · have hx : x ∈ t.declared := hw.declared x (by rw [ha]; exact List.mem_append_right _ (.head _))
      rw [Surface.made_append_new (ht x hx) (hs ▸ hd), ha, hs]

theorem declared_follow (hs : s.declared = made t.isOuter done) (hw : (follow s bs).Within t) (ht : t.Apart) :
    (follow s bs).declared = made t.isOuter (done ++ bs) := by
  induction bs generalizing s done with
  | nil => simpa [follow] using hs
  | cons b bs ih =>
    rw [List.append_cons]
    exact ih (declared_after hs ((within_follow _ bs).trans hw) ht) hw

theorem nodup_follow (h : s.declared.Nodup) : (follow s bs).declared.Nodup := by
  induction bs generalizing s with
  | nil => exact h
  | cons b bs ih =>
    refine ih ?_
    cases b with
    | outer x => exact h
    | assigned x =>
      rcases s.after_cases x with ⟨-, ha⟩ | ⟨-, -, ha⟩ | ⟨-, hx, ha⟩
      · exact ha.symm ▸ h
      · exact ha.symm ▸ h
      · rw [ha]
        refine List.nodup_append.mpr ⟨h, List.nodup_singleton x, fun y hy z hz => ?_⟩
        rw [List.mem_singleton.mp hz]
        rintro rfl
        exact hx hy

theorem names_declarations (s : Scope) : s.declarations.map (·.name) = s.declared := by
  simp [declarations, Function.comp_def]

/-- A scope that starts with no names comes to declare those that its lines make. -/
theorem declares_follow (hd : s.declared = []) (hn : s.nonlocals = []) (h : (follow s bs).Apart) :
    Declares s.params bs (follow s bs).declarations := by
  have hnames := (follow s bs).names_declarations
  have houter : (follow s bs).isOuter = Surface.isOuter s.params bs := by
    funext x
    rw [isOuter_follow, isOuter, hn]
    simp [Surface.isOuter]
  have hnone : s.declared = made (follow s bs).isOuter [] := by
    rw [hd]
    rfl
  have hmade := declared_follow hnone (.refl _) h
  rw [List.nil_append, houter] at hmade
  refine ⟨?_, ?_, hnames.trans hmade⟩
  · rw [hnames]
    exact nodup_follow (hd.symm ▸ .nil)
  · intro d hd
    obtain ⟨x, -, rfl⟩ := List.mem_map.mp hd
    rfl

end Scope

/-! What is taken -/

variable {ts rest : List Token}

theorem expect_takes (kind : Token.Kind) (ts : List Token) :
    Yields (fun r => ∃ span, ts = ⟨kind, span⟩ :: r.2.val) (expect kind ts) := by
  unfold expect
  split
  · next t rest =>
    split
    · next hk => exact .ok ⟨t.span, by rw [← hk]⟩
    · exact .error
  · exact .error

theorem expectName_takes (ts : List Token) :
    Yields (fun r => ∃ span, ts = ⟨.ident r.1.1, span⟩ :: r.2.val) (expectName ts) := by
  unfold expectName
  split
  · exact .ok ⟨_, rfl⟩
  · exact .error

theorem expr_takes (ts : List Token) : Yields (fun r => Takes (· = r.1) r.2.val (expr ts) ∧ r.1.IsExpr) (expr ts) :=
  fun r hr => ⟨⟨r.1, r.2.property, hr, rfl⟩, expr_isExpr ts r hr⟩

/-! Statements -/

/-- A scope is left behind lines that were accepted in it. -/
structure Leaves (s : Scope) (bs : List Binding) (s' : Scope) : Prop where
  scope : s' = follow s bs
  apart : s.Apart → s'.Apart

/-- The node is right in the scope at the end of the body. -/
def Settles (P : List String → Prop) (s : Scope) : Prop := ∀ t, s.Within t → t.Apart → P t.declared

theorem Leaves.nil (s : Scope) : Leaves s [] s := ⟨rfl, id⟩

theorem Leaves.append (h : Leaves s bs s') (h' : Leaves s' cs t) : Leaves s (bs ++ cs) t :=
  ⟨by rw [follow_append, ← h.scope]; exact h'.scope, fun ha => h'.apart (h.apart ha)⟩

theorem Leaves.within (h : Leaves s bs s') : s.Within s' := h.scope ▸ s.within_follow bs

theorem Leaves.isFunction (h : Leaves s bs s') : s'.isFunction = s.isFunction := by
  rw [h.scope]
  exact isFunction_follow s bs

/-- At the end of a body that starts with no names all of them are known. -/
theorem Leaves.declares (h : Leaves s bs s') (hd : s.declared = []) (hn : s.nonlocals = []) :
    s'.Apart ∧ Declares s.params bs s'.declarations := by
  have hapart := h.apart fun x hx => by rw [hd] at hx; cases hx
  rw [h.scope] at hapart ⊢
  exact ⟨hapart, Scope.declares_follow hd hn hapart⟩

theorem Settles.mono {P : List String → Prop} (h : Settles P s) (hw : s.Within s') : Settles P s' :=
  fun t ht ha => h t (hw.trans ht) ha

theorem nonlocals_reads (s : Scope) (ts : List Token) :
    Yields (fun r => ∃ xs, Names xs ts r.2.val ∧ Leaves s (xs.map .outer) r.1) (nonlocals s ts) := by
  unfold nonlocals
  refine (expectName_takes ts).bind ?_
  rintro ⟨⟨name, span⟩, r₁, h₁⟩ ⟨_, hts⟩
  dsimp only at hts ⊢
  split
  · exact .error
  · split
    · exact .error
    · next hd =>
      have hs : Leaves s [.outer name] { s with nonlocals := name :: s.nonlocals } :=
        ⟨rfl, fun ha => ha.outer (by simpa using hd)⟩
      split
      · next _ comma r₂ h₁ =>
        refine (nonlocals_reads _ r₂).bind ?_
        rintro ⟨s', r₃, h₃⟩ ⟨xs, hnames, hs'⟩
        exact .pure ⟨name :: xs, (hts.symm ▸ .cons hnames : Names (name :: xs) ts r₃), hs.append hs'⟩
      · exact .pure ⟨[name], (hts.symm ▸ .last : Names [name] ts r₁), hs⟩
termination_by ts.length
decreasing_by
  simp only [List.length_cons] at h₁
  omega

theorem expressionOrAssignment_reads (s : Scope) (ts : List Token) :
    Yields (fun r => ∃ st : Stmt, st.Simple ts r.2.val ∧ Leaves s st.bindings r.1.2 ∧
      Settles (fun names => st.Resolves names s.isFunction (some r.1.1)) r.1.2) (expressionOrAssignment s ts) := by
  simp only [expressionOrAssignment]
  refine (expr_takes ts).bind ?_
  rintro ⟨left, r₁, h₁⟩ ⟨hl, hle⟩
  dsimp only
  split
  · split
    · next _ sign r₂ h₁ _ span target =>
      refine (expr_takes _).bind ?_
      rintro ⟨value, r₃, h₃⟩ ⟨hv, hve⟩
      refine .pure ⟨.assign target value, .assign hl hv, ⟨by rw [bind_eq]; rfl, fun ha => ?_⟩, fun t hw ht => ?_⟩
      · rw [bind_eq]
        exact ha.assigned target
      · exact .assign hve (Scope.bind_within hw ht)
    · exact .error
  · exact .pure ⟨.expression left, .expression hl, .nil s, fun t _ _ => .expression hle⟩

theorem simple_reads (s : Scope) (ts : List Token) :
    Yields (fun r => ∃ st : Stmt, st.Simple ts r.2.val ∧ Leaves s st.bindings r.1.2 ∧
      Settles (fun names => st.Resolves names s.isFunction r.1.1) r.1.2) (simple s ts) := by
  simp only [simple]
  split
  · exact .ok ⟨.pass, .pass, .nil s, fun t _ _ => .pass⟩
  · split
    · exact .error
    · next hf =>
      have hf : s.isFunction = true := by simpa using hf
      rw [hf]
      split
      · exact .ok ⟨.ret none, .ret, .nil s, fun t _ _ => .ret nofun⟩
      · refine (expr_takes _).bind ?_
        rintro ⟨value, r₁, h₁⟩ ⟨hv, hve⟩
        exact .pure ⟨.ret (some value), .answer hv, .nil s, fun t _ _ => .ret fun n hn => Option.some.inj hn ▸ hve⟩
  · split
    · exact .error
    · next hf =>
      have hf : s.isFunction = true := by simpa using hf
      rw [hf]
      refine (nonlocals_reads s _).bind ?_
      rintro ⟨s', r₁, h₁⟩ ⟨xs, hnames, hs⟩
      exact .pure ⟨.outer xs, .outer hnames, hs, fun t _ _ => .outer⟩
  · refine (expressionOrAssignment_reads s _).bind ?_
    rintro ⟨⟨node, s'⟩, r⟩ h
    exact .pure h

/-- A body that is read in a scope of its own makes a function that is resolved. -/
theorem functionOf_resolves {f : String} {ps : List Param} {body : Suite} {nodes : List Node} (colon start : Span)
    {names : List String} {inside d : Bool} (hd : d = true ↔ f ∈ names) (hp : ProperParams ps)
    (hs : Leaves (Scope.ofFunction ps) body.bindings s)
    (hb : Settles (fun names => body.Resolves names true nodes) s) :
    Stmt.Resolves names inside (.define f ps body) (some (.define start f (functionOf (some f) ps s colon nodes) d)) := by
  obtain ⟨hapart, hmade⟩ := hs.declares rfl rfl
  have hnames := s.names_declarations
  have hbody : body.Resolves (s.declarations.map (·.name)) true nodes := hnames ▸ hb s (.refl s) hapart
  rw [functionOf, ← hnames]
  by_cases hr : nodes.getLast?.any isReturn = true
  · obtain ⟨last, hlast, hret⟩ : ∃ last, nodes.getLast? = some last ∧ isReturn last = true := by
      simpa [Option.any_eq_true] using hr
    obtain ⟨front, rfl⟩ := List.getLast?_eq_some_iff.mp hlast
    have hends : EndsInReturn (front ++ [last] ++ []) := by
      cases last with
      | ret span value => exact ⟨front, span, value, by simp⟩
      | _ => cases hret
    rw [if_pos hr, ← List.append_nil (front ++ [last])]
    exact .define hd hp hmade hbody (.inl rfl) hends
  · rw [if_neg hr]
    exact .define hd hp hmade hbody (.inr ⟨_, rfl⟩) ⟨nodes, _, none, rfl⟩

theorem Leaves.line {st : Stmt} {node : Option Node} (h : Leaves s st.bindings s')
    (hst : Settles (fun names => st.Resolves names s.isFunction node) s') :
    Leaves s (Suite.cons st .nil).bindings s' ∧
      Settles (fun names => (Suite.cons st .nil).Resolves names s.isFunction node.toList) s' := by
  rw [Suite.bindings, Suite.bindings, List.append_nil]
  refine ⟨h, fun t hw ht => ?_⟩
  have hcons := Suite.Resolves.cons (hst t hw ht) .nil
  rwa [List.append_nil] at hcons

/-- A condition and its suites; an `if` and an `elif` differ in their first word only. -/
structure Forks (start : Span) (s : Scope) (ts : List Token) (node : Node) (s' : Scope) (rest : List Token) (e : Node)
    (yes : Suite) (no : Alternate) : Prop where
  if_ : Stmt.Spelt (.branch e yes no) (⟨.keyword .if_, start⟩ :: ts) rest
  elif : Alternate.Spelt (.elif e yes no) (⟨.keyword .elif, start⟩ :: ts) rest
  leaves : Leaves s (yes.bindings ++ no.bindings) s'
  branch : Settles (fun names => Stmt.Resolves names s.isFunction (.branch e yes no) (some node)) s'
  alternate : Settles (fun names => Alternate.Resolves names s.isFunction (.elif e yes no) (some node)) s'

theorem Forks.intro {start span within colon : Span} {mid mid' : List Token} {e : Node} {yes : Suite} {no : Alternate}
    {nodes : List Node} {node : Option Node} (he : e.IsExpr)
    (hts : Takes (· = e) (⟨.symbol .colon, colon⟩ :: mid) (expr ts)) (hyes : yes.Spelt mid mid')
    (hno : no.Spelt mid' rest) (hs : Leaves s yes.bindings s') (hs' : Leaves s' no.bindings t)
    (hy : Settles (fun names => yes.Resolves names s.isFunction nodes) s')
    (hn : Settles (fun names => no.Resolves names s.isFunction node) t) :
    Forks start s ts (.branch span e (.block within [] nodes) node) t rest e yes no :=
  ⟨.branch hts hyes hno, .elif hts hyes hno, hs.append hs',
    fun u hw hu => .branch he (hy.mono hs'.within u hw hu) (hn u hw hu),
    fun u hw hu => .elif he (hy.mono hs'.within u hw hu) (hn u hw hu)⟩

mutual

theorem statement_reads (s : Scope) (ts : List Token) :
    Yields (fun r => ∃ st : Stmt, st.Spelt ts r.2.val ∧ Leaves s st.bindings r.1.2 ∧
      Settles (fun names => st.Resolves names s.isFunction r.1.1) r.1.2) (statement s ts) := by
  unfold statement
  split
  · next start rest =>
    refine (definition_reads start s rest).bind ?_
    rintro ⟨⟨node, s'⟩, r, h⟩ hd
    exact .pure hd
  · next start rest =>
    refine (branch_reads start s rest).bind ?_
    rintro ⟨⟨node, s'⟩, r, h⟩ ⟨e, yes, no, hforks⟩
    exact .pure ⟨.branch e yes no, hforks.if_, hforks.leaves, hforks.branch⟩
  · refine (simple_reads s _).bind ?_
    rintro ⟨⟨node, s'⟩, r₁, h₁⟩ ⟨st, hst, h⟩
    refine (expect_takes .newline r₁).bind ?_
    rintro ⟨_, r₂, h₂⟩ ⟨span, hr₁⟩
    dsimp only at hr₁
    subst hr₁
    exact .pure ⟨st, .simple hst, h⟩
termination_by (ts.length, 1)
decreasing_by all_goals subst_vars; simp only [Prod.lex_def, List.length_cons]; omega

theorem definition_reads (start : Span) (s : Scope) (ts : List Token) :
    Yields (fun r => ∃ st : Stmt, st.Spelt (⟨.keyword .def_, start⟩ :: ts) r.2.val ∧ Leaves s st.bindings r.1.2 ∧
      Settles (fun names => st.Resolves names s.isFunction (some r.1.1)) r.1.2) (definition start s ts) := by
  simp only [definition]
  refine (expectName_takes ts).bind ?_
  rintro ⟨⟨name, _⟩, r₁, h₁⟩ ⟨_, hts⟩
  refine (expect_takes _ r₁).bind ?_
  rintro ⟨_, r₂, h₂⟩ ⟨lparen, hr₁⟩
  refine Yields.bind (P := fun r => Takes (· = r.1) r.2.val (params (.symbol .rparen) [] r₂) ∧ ProperParams r.1)
    (fun r hr => ⟨⟨r.1, r.2.property, hr, rfl⟩, params_proper _ [] r₂ .nil nofun r hr⟩) ?_
  rintro ⟨ps, r₃, h₃⟩ ⟨hps, hproper⟩
  refine (expect_takes _ r₃).bind ?_
  rintro ⟨_, r₄, h₄⟩ ⟨rparen, hr₃⟩
  refine (expect_takes _ r₄).bind ?_
  rintro ⟨colon, r₅, h₅⟩ ⟨_, hr₄⟩
  have hlt : r₅.length < ts.length :=
    Nat.lt_of_lt_of_le (Nat.lt_trans h₅ h₄) (Nat.le_trans h₃ (Nat.le_of_lt (Nat.lt_trans h₂ h₁)))
  refine (suite_reads (Scope.ofFunction ps) r₅).bind ?_
  rintro ⟨⟨body, inner⟩, r₆, h₆⟩ ⟨b, hb, hs, hsettles⟩
  dsimp only at hts hr₁ hr₃ hr₄ hps hb
  refine .pure ⟨.define name ps b, ?_, ⟨by rw [bind_eq]; rfl, fun ha => ?_⟩, fun t hw ht => ?_⟩
  · rw [hr₃, hr₄] at hps
    change Stmt.Spelt _ (_ :: ts) r₆
    rw [hts, hr₁]
    exact .define hps hb
  · rw [bind_eq]
    exact ha.assigned name
  · exact functionOf_resolves colon _ (Scope.bind_within hw ht) hproper hs hsettles
termination_by (ts.length, 0)
decreasing_by all_goals simp only [Prod.lex_def]; omega

theorem suite_reads (s : Scope) (ts : List Token) :
    Yields (fun r => ∃ body : Suite, body.Spelt ts r.2.val ∧ Leaves s body.bindings r.1.2 ∧
      Settles (fun names => body.Resolves names s.isFunction r.1.1) r.1.2) (suite s ts) := by
  unfold suite
  split
  · next newline rest =>
    refine (expect_takes .indent rest).bind ?_
    rintro ⟨_, r₁, h₁⟩ ⟨indent, hrest⟩
    refine (statements_reads s r₁).bind ?_
    rintro ⟨⟨body, s'⟩, r₂, h₂⟩ ⟨b, hb, h⟩
    refine (expect_takes .dedent r₂).bind ?_
    rintro ⟨_, r₃, h₃⟩ ⟨dedent, hr₂⟩
    dsimp only at hrest hr₂ hb
    subst hr₂
    exact .pure ⟨b, (hrest.symm ▸ .block hb : b.Spelt (_ :: rest) r₃), h⟩
  · refine (simple_reads s _).bind ?_
    rintro ⟨⟨node, s'⟩, r₁, h₁⟩ ⟨st, hst, hs, hsettles⟩
    refine (expect_takes .newline r₁).bind ?_
    rintro ⟨_, r₂, h₂⟩ ⟨span, hr₁⟩
    dsimp only at hr₁
    subst hr₁
    exact .pure ⟨.cons st .nil, .line hst, hs.line hsettles⟩
termination_by (ts.length, 0)
decreasing_by subst_vars; simp [Prod.lex_def]; omega

theorem statements_reads (s : Scope) (ts : List Token) :
    Yields (fun r => ∃ body : Suite, body.Run ts r.2.val ∧ Leaves s body.bindings r.1.2 ∧
      Settles (fun names => body.Resolves names s.isFunction r.1.1) r.1.2) (statements s ts) := by
  unfold statements
  split
  · exact .ok ⟨.nil, .nil, .nil s, fun t _ _ => .nil⟩
  · refine (statement_reads s ts).bind ?_
    rintro ⟨⟨node, s₁⟩, r₁, h₁⟩ ⟨st, hst, hs, hsettles⟩
    refine (statements_reads s₁ r₁).bind ?_
    rintro ⟨⟨nodes, s₂⟩, r₂, h₂⟩ ⟨b, hb, hs', hsettles'⟩
    refine .pure ⟨.cons st b, .cons hst hb, hs.append hs', fun t hw ht => .cons ?_ ?_⟩
    · exact hsettles.mono hs'.within t hw ht
    · exact hs.isFunction ▸ hsettles' t hw ht
termination_by (ts.length, 2)
decreasing_by all_goals simp only [Prod.lex_def, true_and]; omega

theorem branch_reads (start : Span) (s : Scope) (ts : List Token) :
    Yields (fun r => ∃ e yes no, Forks start s ts r.1.1 r.1.2 r.2.val e yes no) (branch start s ts) := by
  unfold branch
  refine (expr_takes ts).bind ?_
  rintro ⟨test, r₁, h₁⟩ ⟨ht, hte⟩
  refine (block_reads s r₁).bind ?_
  rintro ⟨⟨block, s₁⟩, r₂, h₂⟩ ⟨yes, nodes, within, colon, mid, hr₁, hyes, rfl, hs, hy⟩
  dsimp only at ht hr₁ hyes hs hy ⊢
  subst hr₁
  split
  · next _ elif r₃ h₂ =>
    have h₃ : r₃.length < ts.length := by simp only [List.length_cons] at h₂ h₁; omega
    refine (branch_reads elif s₁ r₃).bind ?_
    rintro ⟨⟨no, s₂⟩, r₄, h₄⟩ ⟨e, yes', no', hforks⟩
    exact .pure ⟨test, yes, .elif e yes' no', .intro hte ht hyes hforks.elif hs hforks.leaves hy
      (hs.isFunction ▸ hforks.alternate)⟩
  · next _ word r₃ h₂ =>
    have h₃ : r₃.length < ts.length := by simp only [List.length_cons] at h₂ h₁; omega
    refine (block_reads s₁ r₃).bind ?_
    rintro ⟨⟨_, s₂⟩, r₄, h₄⟩ ⟨no, nodes', within', colon', mid', hr₃, hno, rfl, hs', hn⟩
    dsimp only at hr₃ hno hs' hn
    subst hr₃
    exact .pure ⟨test, yes, .otherwise no, .intro hte ht hyes (.otherwise hno) hs hs' hy
      fun t hw ht => .otherwise (hs.isFunction ▸ hn t hw ht)⟩
  · exact .pure ⟨test, yes, .none, .intro hte ht hyes .none hs (.nil s₁) hy fun t _ _ => .none⟩
termination_by (ts.length, 2)
decreasing_by all_goals subst_vars; simp only [Prod.lex_def]; omega

theorem block_reads (s : Scope) (ts : List Token) :
    Yields (fun r => ∃ (body : Suite) (nodes : List Node) (span colon : Span) (mid : List Token),
      ts = ⟨.symbol .colon, colon⟩ :: mid ∧ body.Spelt mid r.2.val ∧ r.1.1 = .block span [] nodes ∧
        Leaves s body.bindings r.1.2 ∧ Settles (fun names => body.Resolves names s.isFunction nodes) r.1.2) (block s ts) := by
  simp only [block]
  refine (expect_takes _ ts).bind ?_
  rintro ⟨_, r₁, h₁⟩ ⟨colon, hts⟩
  refine (suite_reads s r₁).bind ?_
  rintro ⟨⟨body, s'⟩, r₂, h₂⟩ ⟨b, hb, h⟩
  exact .pure ⟨b, body, _, colon, r₁, hts, hb, rfl, h⟩
termination_by (ts.length, 1)
decreasing_by all_goals simp only [Prod.lex_def]; omega

end

/-! Programs -/

theorem topLevel_reads (s : Scope) (ts : List Token) :
    Yields (fun r => ∃ p : Suite, p.Whole ts ∧ Leaves s p.bindings r.2.1 ∧
      Settles (fun names => p.Resolves names s.isFunction r.1) r.2.1) (topLevel s ts) := by
  unfold topLevel
  split
  · exact .ok ⟨.nil, .nil, .nil s, fun t _ _ => .nil⟩
  · next t rest =>
    obtain ⟨kind, span⟩ := t
    split
    · next hk =>
      obtain rfl : kind = .eof := hk
      exact .ok ⟨.nil, .eof, .nil s, fun t _ _ => .nil⟩
    · next hk =>
      obtain rfl : kind = .newline := hk
      refine fun r hr => ?_
      obtain ⟨p, hp, h⟩ := topLevel_reads s rest r hr
      exact ⟨p, .blank hp, h⟩
    · exact .error
    · refine (statement_reads s _).bind ?_
      rintro ⟨⟨node, s₁⟩, r₁, h₁⟩ ⟨st, hst, hs, hsettles⟩
      refine (topLevel_reads s₁ r₁).bind ?_
      rintro ⟨nodes, s₂, stop⟩ ⟨p, hp, hs', hsettles'⟩
      refine .pure ⟨.cons st p, .cons hst hp, hs.append hs', fun t hw ht => .cons ?_ ?_⟩
      · exact hsettles.mono hs'.within t hw ht
      · exact hs.isFunction ▸ hsettles' t hw ht
termination_by ts.length
decreasing_by all_goals subst_vars; first | assumption | simp

/-- Tokens that are accepted spell a program whose tree is resolved. -/
theorem program_reads (ts : List Token) :
    Yields (fun tree => ∃ p : Suite, p.Whole ts ∧ p.ResolvesProgram tree) (program ts) := by
  simp only [program]
  refine (topLevel_reads _ ts).bind ?_
  rintro ⟨nodes, s, stop⟩ ⟨p, hp, hs, hsettles⟩
  obtain ⟨hapart, hmade⟩ := Leaves.declares hs rfl rfl
  exact .pure ⟨p, hp, .program hmade (s.names_declarations ▸ hsettles s (.refl s) hapart)⟩

end CseMachine.Parse

namespace CseMachine

/-- Every source that is accepted spells a well-scoped program. -/
theorem parse_scoped {source : String} {tree : Node} (h : parse source = .ok tree) :
    tree.ScopedProgram := by
  obtain ⟨ts, -, hp⟩ := bind_ok_iff.mp h
  obtain ⟨p, -, hresolves⟩ := Parse.program_reads ts tree hp
  exact hresolves.scoped

end CseMachine

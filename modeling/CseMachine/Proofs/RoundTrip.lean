import CseMachine.Parse
import CseMachine.Proofs.Surface.Statements

/-!
# What is written is read back

The text of a program is parsed to its tree. The lexer gives the tokens of its lines,
and from them the readers take statement by statement; the names that the program
makes are those of the scope at its end.
-/
namespace CseMachine.Surface

open Parse
open Token (Kind)

variable {ts rest : List Token} {foreign : String → Bool} {s : Scope} {bs cs : List Binding}

/-! Programs take no name from outside -/

theorem outerNames_append : outerNames (bs ++ cs) = outerNames bs ++ outerNames cs := List.filterMap_append

mutual

theorem Stmt.outerNames_eq_nil (st : Stmt) (h : st.Legal false) : outerNames st.bindings = [] := by
  cases st with
  | branch test yes no =>
    rw [Stmt.bindings, outerNames_append, Suite.outerNames_eq_nil yes h.1, Alternate.outerNames_eq_nil no h.2]
    rfl
  | outer x xs => cases h
  | _ => rfl

theorem Suite.outerNames_eq_nil (b : Suite) (h : b.Legal false) : outerNames b.bindings = [] := by
  cases b with
  | last st => exact Stmt.outerNames_eq_nil st h
  | cons st rest =>
    rw [Suite.bindings, outerNames_append, Stmt.outerNames_eq_nil st h.1, Suite.outerNames_eq_nil rest h.2]
    rfl

theorem Alternate.outerNames_eq_nil (a : Alternate) (h : a.Legal false) : outerNames a.bindings = [] := by
  cases a with
  | none => rfl
  | otherwise body => exact Suite.outerNames_eq_nil body h
  | elif test yes no =>
    rw [Alternate.bindings, outerNames_append, Suite.outerNames_eq_nil yes h.1, Alternate.outerNames_eq_nil no h.2]
    rfl

end

theorem Program.outerNames_eq_nil {p : Program} (h : p.Legal) : outerNames p.bindings = [] := by
  induction p with
  | nil => rfl
  | cons st p ih =>
    rw [bindings, List.flatMap_cons, outerNames_append, st.outerNames_eq_nil (h st (.head _))]
    exact ih fun st hst => h st (.tail _ hst)

theorem isOuter_eq_false (h : outerNames bs = []) : isOuter [] bs = fun _ => false := by
  funext x
  rw [isOuter, h]
  rfl

/-! Statements up to the end of the source -/

theorem topLevel_eof {span : Span} : topLevel s [⟨.eof, span⟩] = .ok ([], s, span.stop) := by rw [topLevel]

theorem topLevel_cons {node : Option Node} {nodes body : List Node} {s' s'' : Scope} {stop : Nat}
    (hstarts : startsStmt (next ts).kind = true) (h : Takes (Leaves node s') rest (statement s ts))
    (hs : topLevel s' rest = .ok (body, s'', stop)) (hbody : ShowsAll nodes body) :
    ∃ all, topLevel s ts = .ok (all, s'', stop) ∧ ShowsAll (node.toList ++ nodes) all := by
  obtain ⟨r, hr, hst, hp⟩ := h
  obtain ⟨n, t⟩ := r
  obtain ⟨hn, rfl⟩ := hp
  refine ⟨n.toList ++ body, ?_, ?_⟩
  · unfold topLevel
    split
    · cases hstarts
    · next t ts =>
      change startsStmt t.kind = true at hstarts
      split
      · next heq =>
        rw [heq] at hstarts
        cases hstarts
      · next heq =>
        rw [heq] at hstarts
        cases hstarts
      · next heq =>
        rw [heq] at hstarts
        cases hstarts
      · rw [hst]
        simp only [hs, bind, Except.bind]
        rfl
  · rw [ShowsAll, List.map_append, hbody, ← hn]
    cases n <;> rfl

theorem closes_eof {span : Span} : Closes [⟨.eof, span⟩] := ⟨by simp [next], by simp [next]⟩

theorem topLevel_reads {p : Program} {span : Span} (hl : ∀ st ∈ p, st.Legal s.isFunction)
    (hs : Suits foreign s p.bindings) (h : Spelt p.tokens ts [⟨.eof, span⟩]) :
    ∃ body, topLevel s ts = .ok (body, follow s p.bindings, span.stop) ∧
      ShowsAll (p.filterMap (Stmt.node? foreign)) body := by
  induction p generalizing s ts with
  | nil =>
    rw [h.eq, topLevel_eof]
    exact ⟨[], rfl, rfl⟩
  | cons st p ih =>
    rw [Program.bindings, List.flatMap_cons] at hs
    obtain ⟨hs, hs'⟩ := suits_append.mp hs
    rw [Program.tokens, List.flatMap_cons] at h
    obtain ⟨mid, hst, hmid⟩ := h.split
    have hcloses : Closes mid := by
      cases p with
      | nil =>
        rw [hmid.eq]
        exact closes_eof
      | cons st' p =>
        rw [List.flatMap_cons] at hmid
        obtain ⟨last, hst', -⟩ := hmid.split
        exact closes_of_startsStmt (Stmt.startsStmt_next hst')
    have hread := st.reads foreign s ts mid (hl st (.head _)) hs hst hcloses
    obtain ⟨body, htop, hbody⟩ := ih (s := follow s st.bindings)
      (fun st' hst' => by rw [isFunction_follow]; exact hl st' (.tail _ hst')) hs' hmid
    rw [Program.bindings, List.flatMap_cons, follow_append]
    obtain ⟨all, hall, hshows⟩ := topLevel_cons (Stmt.startsStmt_next hst) hread htop hbody
    have hnodes : (st :: p).filterMap (Stmt.node? foreign) =
        (st.node? foreign).toList ++ p.filterMap (Stmt.node? foreign) := by
      rw [List.filterMap_cons]
      cases st.node? foreign <;> rfl
    rw [hnodes]
    exact ⟨all, hall, hshows⟩

theorem program_reads {p : Program} {span : Span} (hl : p.Legal) (h : Spelt p.tokens ts [⟨.eof, span⟩]) :
    (Parse.program ts).map Node.bare = .ok p.tree := by
  have hnone := Program.outerNames_eq_nil hl
  have hnames : NamesLegal [] p.bindings := by
    intro x hx
    rw [hnone] at hx
    cases hx
  let start : Scope := { isFunction := false }
  have hlegal : ∀ st ∈ p, st.Legal start.isFunction := hl
  obtain ⟨hsuits, hmade⟩ := NamesLegal.suits (s := start) hnames rfl rfl
  obtain ⟨body, htop, hbody⟩ := topLevel_reads hlegal hsuits h
  rw [isOuter_eq_false hnone] at hbody
  have hread : Parse.program ts = .ok (.program ⟨0, span.stop⟩ (follow start p.bindings).declarations body) := by
    rw [Parse.program, htop]
    rfl
  rw [hread, Except.map, Node.bare, bareAll_eq_map, hbody, Scope.declarations, hmade]
  rfl

/-- A program is parsed from its text to its tree. -/
theorem Program.parse_text (p : Program) (h : p.Legal) : (parse p.text).map Node.bare = .ok p.tree := by
  obtain ⟨ts, hlex, hkinds⟩ := p.lex_text
  obtain ⟨us, vs, rfl, hus, hvs⟩ := List.map_eq_append_iff.mp hkinds
  obtain ⟨t, last, rfl, ht, hlast⟩ := List.map_eq_cons_iff.mp hvs
  obtain rfl := List.map_eq_nil_iff.mp hlast
  obtain ⟨kind, span⟩ := t
  cases ht
  have hparse : parse p.text = Parse.program (us ++ [⟨.eof, span⟩]) := by
    rw [parse, hlex]
    rfl
  rw [hparse]
  exact program_reads h ⟨us, hus, rfl⟩

/-- A counter that is moved by a function inside the one that makes it. -/
def counter : Program :=
  let counter : Name := ⟨"counter", by decide, by decide⟩
  let count : Name := ⟨"count", by decide, by decide⟩
  let move : Name := ⟨"move", by decide, by decide⟩
  let by_ : Name := ⟨"by", by decide, by decide⟩
  let x : Name := ⟨"x", by decide, by decide⟩
  let int (n : Nat) : Expr := .constant (.int n)
  let low : Expr := .unary .not (.binary (.order .lt) (.name count) (.unary .neg (int 5)))
  let answer : Expr := .or (.and (.name x) (.constant (.bool true))) (.binary .eq (.name count) (.name x))
  let body : Suite :=
    .cons (.outer count []) <|
    .cons (.branch (.binary .eq (.name by_) (.list []))
      (.last (.assign count (.binary (.arith .add) (.name count) (int 1))))
      (.elif low (.last (.assign count (.subscript (.name by_) (int 0))))
        (.otherwise (.last (.ret (some (.constant (.str ⟨"it's \"low\"", by decide⟩)))))))) <|
    .last (.ret (some (.lambda ⟨[x], none, by decide⟩ answer)))
  [.define counter ⟨[count], none, by decide⟩
    (.cons (.define move ⟨[], some by_, by decide⟩ body) (.last (.ret (some (.name move))))),
   .expression (.call (.name counter) [int 3])]

theorem Program.parse_text_counter : counter.Legal ∧ (parse counter.text).map Node.bare = .ok counter.tree :=
  ⟨by decide, counter.parse_text (by decide)⟩

end CseMachine.Surface

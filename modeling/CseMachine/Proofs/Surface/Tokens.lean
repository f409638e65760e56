import CseMachine.Proofs.Surface.Lines

/-!
# The tokens of a surface program

A suite stands between an indent and a dedent. The lines of a program do not
show where a suite ends: the next line does, and it may end several at once. So
lines are considered together with what is behind them, from a depth on to which
the reading comes back.
-/
namespace CseMachine.Surface

open Token (Kind)

/-- The end of a line and a block below it. -/
def indented (ks : List Kind) : List Kind := .newline :: .indent :: ks ++ [.dedent]

mutual

def Stmt.tokens : Stmt → List Kind
  | .expression e => Row.tokens e.row ++ [.newline]
  | .assign x e => Row.tokens (joined [.name x] (.sign .assign) e.row) ++ [.newline]
  | .define f ps body => Row.tokens (defHeader f ps) ++ indented body.tokens
  | .ret none => [.keyword .return_, .newline]
  | .ret (some e) => .keyword .return_ :: Row.tokens e.row ++ [.newline]
  | .branch test yes no => Row.tokens (header .if_ test) ++ indented yes.tokens ++ no.tokens
  | .pass => [.keyword .pass, .newline]
  | .outer x xs => Row.tokens (outerRow x xs) ++ [.newline]

def Suite.tokens : Suite → List Kind
  | .last s => s.tokens
  | .cons s rest => s.tokens ++ rest.tokens

def Alternate.tokens : Alternate → List Kind
  | .none => []
  | .otherwise body => .keyword .else_ :: .symbol .colon :: indented body.tokens
  | .elif test yes no => Row.tokens (header .elif test) ++ indented yes.tokens ++ no.tokens

end

def Program.tokens (p : Program) : List Kind := p.flatMap Stmt.tokens

/-- Lines that become these tokens behind any line that is at least as deep, once its levels are
closed down to the depth. -/
def Resumes (depth : Nat) (lines : List Line) (ks : List Kind) : Prop :=
  ∀ c, depth ≤ c → Laid c lines (List.replicate (c - depth) .dedent ++ ks)

variable {d : Nat} {lines : List Line} {ks : List Kind} {r : Row}

theorem Resumes.laid (h : Resumes d lines ks) : Laid d lines ks := by
  have hd := h d (Nat.le_refl d)
  rwa [Nat.sub_self] at hd

theorem Laid.line (h : Laid d lines ks) (hr : r.Neat) : Resumes d (⟨d, r⟩ :: lines) (r.tokens ++ .newline :: ks) := by
  intro c hc
  have hmoves : moves c d = List.replicate (c - d) .dedent := by
    have hzero : d - c = 0 := by omega
    rw [moves, hzero]
    rfl
  have hl := Laid.cons (l := ⟨d, r⟩) (show d ≤ c + 1 by omega) hr h
  rwa [hmoves, List.append_assoc] at hl

/-- Coming back further ends one more block. -/
theorem Resumes.deeper (h : Resumes d lines ks) : Resumes (d + 1) lines (.dedent :: ks) := by
  intro c hc
  have hsplit : c - d = (c - (d + 1)) + 1 := by omega
  have hl := h c (by omega)
  rwa [hsplit, List.replicate_succ', List.append_assoc] at hl

/-- A line that is deeper opens a block. -/
theorem Laid.indent (h : Laid (d + 1) (⟨d + 1, r⟩ :: lines) ks) : Laid d (⟨d + 1, r⟩ :: lines) (.indent :: ks) := by
  have hsame : moves (d + 1) (d + 1) = [] := by simp [moves]
  have hdeeper : moves d (d + 1) = [.indent] := by simp [moves]
  cases h with
  | cons depth neat rest =>
    have hl := Laid.cons (l := ⟨d + 1, r⟩) (Nat.le_refl (d + 1)) neat rest
    rw [hdeeper] at hl
    rw [hsame]
    exact hl

theorem Stmt.lines_eq_cons (s : Stmt) (d : Nat) : ∃ r lines, s.lines d = ⟨d, r⟩ :: lines := by
  cases s with
  | ret value => cases value <;> exact ⟨_, _, rfl⟩
  | _ => exact ⟨_, _, rfl⟩

theorem Suite.lines_eq_cons (b : Suite) (d : Nat) : ∃ r lines, b.lines d = ⟨d, r⟩ :: lines := by
  cases b with
  | last s => exact s.lines_eq_cons d
  | cons s rest =>
    obtain ⟨r, lines, h⟩ := s.lines_eq_cons d
    exact ⟨r, lines ++ rest.lines d, by rw [Suite.lines, h]; rfl⟩

/-- A block is opened by its first line. -/
theorem Resumes.opened (b : Suite) (h : Resumes (d + 1) (b.lines (d + 1) ++ lines) ks) :
    Laid d (b.lines (d + 1) ++ lines) (.indent :: ks) := by
  obtain ⟨r, rest, hb⟩ := b.lines_eq_cons (d + 1)
  have hl := h.laid
  rw [hb] at hl ⊢
  exact hl.indent

/-- A line with a block below it. -/
theorem Resumes.headed (b : Suite) (h : Resumes (d + 1) (b.lines (d + 1) ++ lines) (b.tokens ++ .dedent :: ks))
    (hr : r.Neat) : Resumes d (⟨d, r⟩ :: b.lines (d + 1) ++ lines) (r.tokens ++ indented b.tokens ++ ks) := by
  have hl := h.opened.line hr
  simpa only [indented, List.cons_append, List.append_assoc, List.nil_append] using hl

mutual

theorem Stmt.lines_resume (s : Stmt) {d : Nat} {lines : List Line} {ks : List Kind} (h : Resumes d lines ks) :
    Resumes d (s.lines d ++ lines) (s.tokens ++ ks) := by
  cases s with
  | expression e =>
    rw [Stmt.tokens, List.append_assoc]
    exact h.laid.line e.row_neat
  | assign x e =>
    have hx : Row.Neat [.name x] := .solid rfl
    rw [Stmt.tokens, List.append_assoc]
    exact h.laid.line (hx.joined e.row_neat (by simp) fun _ => rfl)
  | define f ps body =>
    exact (Suite.lines_resume body h.deeper).headed body (defHeader_neat f ps)
  | ret value =>
    cases value with
    | none => exact h.laid.line (.solid rfl)
    | some e =>
      rw [Stmt.tokens, List.append_assoc]
      exact h.laid.line (e.row_neat.keyword .return_)
  | branch test yes no =>
    have hno := Alternate.lines_resume no h
    have hyes := (Suite.lines_resume yes hno.deeper).headed yes (header_neat .if_ test)
    rw [Stmt.tokens, Stmt.lines]
    simpa only [List.append_assoc, List.cons_append] using hyes
  | pass => exact h.laid.line (.solid rfl)
  | outer x xs =>
    rw [Stmt.tokens, List.append_assoc]
    exact h.laid.line (outerRow_neat x xs)

theorem Suite.lines_resume (b : Suite) {d : Nat} {lines : List Line} {ks : List Kind} (h : Resumes d lines ks) :
    Resumes d (b.lines d ++ lines) (b.tokens ++ ks) := by
  cases b with
  | last s => exact Stmt.lines_resume s h
  | cons s rest =>
    rw [Suite.lines, Suite.tokens, List.append_assoc, List.append_assoc]
    exact Stmt.lines_resume s (Suite.lines_resume rest h)

theorem Alternate.lines_resume (a : Alternate) {d : Nat} {lines : List Line} {ks : List Kind} (h : Resumes d lines ks) :
    Resumes d (a.lines d ++ lines) (a.tokens ++ ks) := by
  cases a with
  | none => exact h
  | otherwise body =>
    have helse : Row.Neat [.keyword .else_, .sign .colon] := .colon (.solid rfl)
    exact (Suite.lines_resume body h.deeper).headed body helse
  | elif test yes no =>
    have hno := Alternate.lines_resume no h
    have hyes := (Suite.lines_resume yes hno.deeper).headed yes (header_neat .elif test)
    rw [Alternate.tokens, Alternate.lines]
    simpa only [List.append_assoc, List.cons_append] using hyes

end

theorem Program.lines_resume (p : Program) : Resumes 0 p.lines (p.tokens ++ [.eof]) := by
  induction p with
  | nil =>
    intro c _
    rw [Nat.sub_zero]
    exact .nil c
  | cons s p ih =>
    rw [tokens, List.flatMap_cons, List.append_assoc]
    exact s.lines_resume ih

/-- The tokens of the text of a program. -/
theorem Program.lex_text (p : Program) : ∃ ts, lex p.text = .ok ts ∧ ts.map (·.kind) = p.tokens ++ [.eof] :=
  Surface.lex_text p.lines_resume.laid

end CseMachine.Surface

import CseMachine.Token.Layout

/-!
# Token streams

What it means for tokens to be laid out well. Lines end in newlines, and indents
and dedents stand between lines only and close what they open. Brackets are nested,
and no line ends inside of them. The tokens stand one behind the other in the
source. A stream that is built token by token is laid out as long as each token
may follow what is there.
-/
namespace CseMachine.Token

namespace Kind

/-- What the layout adds to the tokens of a line. -/
def isLayout : Kind → Bool
  | .newline | .indent | .dedent => true
  | _ => false

def opens? : Kind → Option Bracket
  | .symbol s => s.opens?
  | _ => none

def closes? : Kind → Option Bracket
  | .symbol s => s.closes?
  | _ => none

/-- What may stand in front of a token; `none` if nothing does. -/
def Follows (before : Option Kind) : Kind → Prop
  | .indent => before = none ∨ before = some .newline
  | .dedent => before = some .newline ∨ before = some .dedent
  | .newline => ∃ k, before = some k ∧ k.isLayout = false
  | _ => True

/-- Properly nested brackets; inside of them a line neither starts nor ends. -/
inductive Nested : (inside : Bool) → List Kind → Prop
  | nil (inside : Bool) : Nested inside []
  | plain {inside : Bool} {k : Kind} {ks : List Kind} (opens : k.opens? = none) (closes : k.closes? = none)
      (layout : inside = true → k.isLayout = false) (rest : Nested inside ks) : Nested inside (k :: ks)
  | pair {inside : Bool} {opening closing : Kind} {b : Bracket} {body ks : List Kind} (opens : opening.opens? = some b)
      (closes : closing.closes? = some b) (within : Nested true body) (rest : Nested inside ks) :
      Nested inside (opening :: body ++ closing :: ks)

/-- The open brackets behind a token, innermost first, if the token may stand there. -/
def read (brackets : List Bracket) (k : Kind) : Option (List Bracket) :=
  match k.opens?, k.closes? with
  | some b, _ => some (b :: brackets)
  | none, some b => if brackets.head? = some b then some brackets.tail else none
  | none, none => if k.isLayout ∧ brackets ≠ [] then none else some brackets

/-- A token that may stand where it does opens a bracket, closes the innermost one, or does neither. -/
theorem read_eq_some {brackets brackets' : List Bracket} {k : Kind} (h : read brackets k = some brackets') :
    (∃ b, k.opens? = some b ∧ brackets' = b :: brackets) ∨
      k.opens? = none ∧ ((∃ b, k.closes? = some b ∧ brackets = b :: brackets') ∨
        k.closes? = none ∧ (k.isLayout = true → brackets = []) ∧ brackets' = brackets) := by
  simp only [read] at h
  cases ho : k.opens? with
  | some b =>
    rw [ho] at h
    exact .inl ⟨b, rfl, (Option.some.inj h).symm⟩
  | none =>
    rw [ho] at h
    refine .inr ⟨rfl, ?_⟩
    cases hc : k.closes? with
    | some b =>
      rw [hc] at h
      dsimp only at h
      split at h
      · next hb =>
        obtain ⟨rest, rfl⟩ := List.head?_eq_some_iff.mp hb
        exact .inl ⟨b, rfl, congrArg (b :: ·) (Option.some.inj h)⟩
      · cases h
    | none =>
      rw [hc] at h
      dsimp only at h
      split at h
      · cases h
      · next hl => exact .inr ⟨rfl, fun hlayout => by simpa [hlayout] using hl, (Option.some.inj h).symm⟩

/-- Up to the token that closes the innermost bracket all is nested. -/
theorem exists_closing {b : Bracket} {brackets : List Bracket} {ks : List Kind}
    (h : ks.foldlM read (b :: brackets) = some []) :
    ∃ body closing rest, ks = body ++ closing :: rest ∧ Nested true body ∧ closing.closes? = some b ∧
      rest.foldlM read brackets = some [] := by
  induction hn : ks.length using Nat.strongRecOn generalizing b brackets ks with
  | ind n ih =>
    cases ks with
    | nil => cases h
    | cons k ks =>
      have hlen : ks.length < n := by rw [← hn]; exact Nat.lt_succ_self _
      rw [List.foldlM_cons] at h
      obtain ⟨read', hr, h⟩ := Option.bind_eq_some_iff.mp h
      rcases read_eq_some hr with ⟨o, ho, rfl⟩ | ⟨ho, ⟨b', hc, hb⟩ | ⟨hc, hl, rfl⟩⟩
      · -- the bracket that opens here is closed first, and what follows it is shorter
        obtain ⟨inner, closer, behind, rfl, hinner, hcloser, hbehind⟩ := ih _ hlen h rfl
        have hshort : behind.length < n := by
          simp only [List.length_append, List.length_cons] at hlen
          omega
        obtain ⟨body, closing, rest, rfl, hbody, hclosing, hrest⟩ := ih _ hshort hbehind rfl
        exact ⟨k :: inner ++ closer :: body, closing, rest, by simp, .pair ho hcloser hinner hbody, hclosing, hrest⟩
      · obtain ⟨rfl, rfl⟩ := List.cons.inj hb
        exact ⟨[], k, ks, rfl, .nil true, hc, h⟩
      · obtain ⟨body, closing, rest, rfl, hbody, hclosing, hrest⟩ := ih _ hlen h rfl
        have hlayout : k.isLayout = false := by simpa using hl
        exact ⟨k :: body, closing, rest, rfl, .plain ho hc (fun _ => hlayout) hbody, hclosing, hrest⟩

/-- Tokens that leave no bracket open are nested. -/
theorem nested_of_read {ks : List Kind} (h : ks.foldlM read [] = some []) : Nested false ks := by
  induction hn : ks.length using Nat.strongRecOn generalizing ks with
  | ind n ih =>
    cases ks with
    | nil => exact .nil false
    | cons k ks =>
      have hlen : ks.length < n := by rw [← hn]; exact Nat.lt_succ_self _
      rw [List.foldlM_cons] at h
      obtain ⟨read', hr, h⟩ := Option.bind_eq_some_iff.mp h
      rcases read_eq_some hr with ⟨o, ho, rfl⟩ | ⟨ho, ⟨b, hc, hb⟩ | ⟨hc, -, rfl⟩⟩
      · obtain ⟨body, closing, rest, rfl, hbody, hclosing, hrest⟩ := exists_closing h
        have hshort : rest.length < n := by
          simp only [List.length_append, List.length_cons] at hlen
          omega
        exact .pair ho hclosing hbody (ih _ hshort hrest rfl)
      · cases hb
      · exact .plain ho hc nofun (ih _ hlen h rfl)

end Kind

/-- The tokens of a source, laid out. -/
structure LaidOut (source : String) (tokens : List Token) : Prop where
  /-- There is one end marker, and it is the last token. -/
  eof : ∃ front span, tokens = front ++ [⟨.eof, span⟩] ∧ ∀ t ∈ front, t.kind ≠ .eof
  /-- No more levels are closed than were opened. -/
  opened : ∀ front, front <+: tokens → front.countP (·.kind = .dedent) ≤ front.countP (·.kind = .indent)
  closed : tokens.countP (·.kind = .dedent) = tokens.countP (·.kind = .indent)
  follows : ∀ front t, front ++ [t] <+: tokens → t.kind.Follows (front.getLast?.map (·.kind))
  /-- The last dedents and the end marker stand behind a newline, unless there is nothing else. -/
  ending : (∃ span, tokens = [⟨.eof, span⟩]) ∨
    ∃ front n, tokens.map (·.kind) = front ++ .newline :: List.replicate n .dedent ++ [.eof]
  nested : Kind.Nested false (tokens.map (·.kind))
  inside : ∀ t ∈ tokens, t.span.start ≤ t.span.stop ∧ t.span.stop ≤ Text.bytes source.toList
  ordered : tokens.Pairwise fun t u => t.span.start ≤ u.span.start
  apart : (tokens.filter fun t => !t.kind.isLayout).Pairwise fun t u => t.span.stop ≤ u.span.start

/-- Tokens up to an offset, behind which so many levels and these brackets are open. -/
structure Stream (tokens : List Token) (depth : Nat) (brackets : List Bracket) (offset : Nat) : Prop where
  opened : ∀ front, front <+: tokens → front.countP (·.kind = .dedent) ≤ front.countP (·.kind = .indent)
  depth : tokens.countP (·.kind = .dedent) + depth = tokens.countP (·.kind = .indent)
  follows : ∀ front t, front ++ [t] <+: tokens → t.kind.Follows (front.getLast?.map (·.kind))
  brackets : (tokens.map (·.kind)).foldlM Kind.read [] = some brackets
  inside : ∀ t ∈ tokens, t.span.start ≤ t.span.stop ∧ t.span.stop ≤ offset
  apart : tokens.Pairwise fun t u => t.span.stop ≤ u.span.start

namespace Stream

variable {tokens : List Token} {depth depth' offset offset' : Nat} {brackets brackets' : List Bracket} {t : Token}

theorem nil : Stream [] 0 [] 0 where
  opened front h := by simp [List.prefix_nil.mp h]
  depth := rfl
  follows front t h := by simp at h
  brackets := rfl
  inside := by simp
  apart := .nil

/-- One more token. -/
theorem concat (h : Stream tokens depth brackets offset) (follows : t.kind.Follows (tokens.getLast?.map (·.kind)))
    (hdepth : depth' + (if t.kind = .dedent then 1 else 0) = depth + if t.kind = .indent then 1 else 0)
    (hread : t.kind.read brackets = some brackets') (hstart : offset ≤ t.span.start) (hspan : t.span.start ≤ t.span.stop)
    (hstop : t.span.stop ≤ offset') : Stream (tokens ++ [t]) depth' brackets' offset' := by
  have hcount : ∀ k : Kind, (tokens ++ [t]).countP (·.kind = k) =
      tokens.countP (·.kind = k) + if t.kind = k then 1 else 0 := by
    intro k
    simp [List.countP_append, List.countP_singleton]
  have hd := h.depth
  constructor
  · intro front hp
    rcases List.prefix_concat_iff.mp hp with rfl | hp
    · rw [hcount, hcount]
      omega
    · exact h.opened front hp
  · rw [hcount, hcount]
    omega
  · intro front u hp
    rcases List.prefix_concat_iff.mp hp with he | hp
    · obtain ⟨rfl, rfl⟩ := List.append_singleton_inj.mp he
      exact follows
    · exact h.follows front u hp
  · rw [List.map_append, List.foldlM_append, h.brackets]
    simpa using hread
  · intro u hu
    rcases List.mem_append.mp hu with hu | hu
    · have := h.inside u hu
      omega
    · obtain rfl := List.mem_singleton.mp hu
      exact ⟨hspan, hstop⟩
  · refine List.pairwise_append.mpr ⟨h.apart, List.pairwise_singleton _ _, fun u hu v hv => ?_⟩
    obtain rfl := List.mem_singleton.mp hv
    exact Nat.le_trans (h.inside u hu).2 hstart

/-- Further in the source there is nothing yet. -/
theorem mono (h : Stream tokens depth brackets offset) (ho : offset ≤ offset') : Stream tokens depth brackets offset' :=
  { h with inside := fun t ht => ⟨(h.inside t ht).1, Nat.le_trans (h.inside t ht).2 ho⟩ }

/-- Dedents close levels where no bracket is open. -/
theorem dedents (h : Stream tokens depth [] offset) (n : Nat) (hn : n ≤ depth) {start : Nat} (hs : offset ≤ start)
    (hlast : n ≠ 0 → tokens.getLast?.map (·.kind) = some .newline) :
    Stream (tokens ++ List.replicate n ⟨.dedent, Span.point start⟩) (depth - n) [] start := by
  induction n with
  | zero => simpa using h.mono hs
  | succ n ih =>
    have hprev := ih (by omega) fun _ => hlast (Nat.succ_ne_zero n)
    rw [List.replicate_succ', ← List.append_assoc]
    refine hprev.concat ?_ ?_ rfl (Nat.le_refl _) (Nat.le_refl _) (Nat.le_refl _)
    · cases n with
      | zero => exact .inl (by simpa using hlast (Nat.succ_ne_zero 0))
      | succ n => exact .inr (by simp [List.replicate_succ', ← List.append_assoc])
    · simp only [reduceCtorEq, if_true, if_false]
      omega

end Stream
end CseMachine.Token

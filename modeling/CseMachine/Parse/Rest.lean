import CseMachine.Parse.Error

/-!
Taking tokens off the front. A reader answers what it has read together with
the tokens it leaves, which are fewer than it was given; this is what makes
every reader terminate. The end marker is never taken.
-/
namespace CseMachine.Parse

/-- The end of a token list that has no end marker. -/
def missing : Token := ⟨.eof, Span.none⟩

/-- The token to be read next. -/
def next (ts : List Token) : Token := ts.headD missing

/-- Tokens that are left after at least one was read. -/
abbrev Fewer (ts : List Token) := { rest : List Token // rest.length < ts.length }

/-- Tokens that are left after any number was read. -/
abbrev AtMost (ts : List Token) := { rest : List Token // rest.length ≤ ts.length }

def Fewer.weaken {ts : List Token} (r : Fewer ts) : AtMost ts := ⟨r.val, Nat.le_of_lt r.property⟩

/-- What a reader that takes at least one token answers. -/
abbrev Read (α : Type) (ts : List Token) := Except ParseError (α × Fewer ts)

/-- What a reader that may take no token answers. -/
abbrev Scan (α : Type) (ts : List Token) := Except ParseError (α × AtMost ts)

/-- Another kind of token stands where one was needed. -/
def unexpected (expected : String) (ts : List Token) : ParseError :=
  ⟨.unexpected expected (next ts).kind, (next ts).span⟩

/-- Take a token of the given kind. -/
def expect (kind : Token.Kind) (ts : List Token) : Read Span ts :=
  match ts with
  | t :: rest =>
    if t.kind = kind then .ok (t.span, ⟨rest, by simp⟩)
    else .error (unexpected kind.describe (t :: rest))
  | [] => .error (unexpected kind.describe [])

def expectSymbol (s : Symbol) (ts : List Token) : Read Span ts := expect (.symbol s) ts

/-- Take a name. -/
def expectName (ts : List Token) : Read (String × Span) ts :=
  match ts with
  | ⟨.ident name, span⟩ :: rest => .ok ((name, span), ⟨rest, by simp⟩)
  | ts => .error (unexpected "identifier" ts)

/-- Take a token of the given kind if it is next, and say whether it was. -/
def eat (kind : Token.Kind) (ts : List Token) : Bool × AtMost ts :=
  match ts with
  | t :: rest => if t.kind = kind then (true, ⟨rest, by simp⟩) else (false, ⟨t :: rest, Nat.le_refl _⟩)
  | [] => (false, ⟨[], Nat.le_refl _⟩)

end CseMachine.Parse

import CseMachine.Proofs.Parsing.Agreement

/-!
# Reading comes to an end

The cursor of a plan only goes forwards, never over an end marker, and the plan asks
a reader of higher rank only when a token has been taken. So a reader that is asked
again within itself, be it as the next round of a loop, has fewer tokens before it,
and the depth that reading takes is bounded by the number of the tokens.
-/
namespace CseMachine.Parse

open Token (Kind)

variable {α β : Type} {s s' : Bool} {ts rest more : List Token} {kind : Kind}

/-- From one cursor to another tokens are taken, at least one if `strict`, but no end marker. -/
def Past (strict : Bool) (ts rest : List Token) : Prop :=
  ∃ taken, ts = taken ++ rest ∧ (strict = true → taken ≠ []) ∧ ∀ t ∈ taken, t.kind ≠ .eof

namespace Past

theorem refl (ts : List Token) : Past false ts ts := ⟨[], rfl, nofun, nofun⟩

theorem mono (h : Past s ts rest) (hs : s' = true → s = true) : Past s' ts rest := by
  obtain ⟨taken, rfl, hne, hno⟩ := h
  exact ⟨taken, rfl, fun h' => hne (hs h'), hno⟩

theorem weaken (h : Past s ts rest) : Past false ts rest := h.mono nofun

theorem trans (h : Past s ts rest) (h' : Past s' rest more) : Past (s || s') ts more := by
  obtain ⟨taken, rfl, hne, hno⟩ := h
  obtain ⟨taken', rfl, hne', hno'⟩ := h'
  refine ⟨taken ++ taken', (List.append_assoc ..).symm, fun hs hnil => ?_, List.forall_mem_append.2 ⟨hno, hno'⟩⟩
  obtain ⟨hnil, hnil'⟩ := List.append_eq_nil_iff.1 hnil
  rcases Bool.or_eq_true .. ▸ hs with hs | hs
  · exact hne hs hnil
  · exact hne' hs hnil'

theorem advance (h : (next ts).kind ≠ .eof) : Past true ts (advance ts) := by
  cases ts with
  | nil => exact (h rfl).elim
  | cons t rest =>
    have hadv : Parse.advance (t :: rest) = rest := advance_cons h
    rw [hadv]
    exact ⟨[t], rfl, fun _ => nofun, fun t' ht => List.mem_singleton.1 ht ▸ h⟩

theorem advance_or_stay (ts : List Token) : Past false ts (Parse.advance ts) := by
  rcases ts with _ | ⟨t, rest⟩
  · exact .refl _
  · by_cases h : t.kind = .eof
    · rw [Parse.advance, if_pos h]
      exact .refl _
    · have hadv : Past true (t :: rest) (Parse.advance (t :: rest)) := advance h
      exact hadv.weaken

theorem advance_if (b : Bool) (ts : List Token) : Past false ts (if b then Parse.advance ts else ts) := by
  cases b with
  | false => exact .refl ts
  | true => exact .advance_or_stay ts

theorem length_le (h : Past s ts rest) : rest.length ≤ ts.length := by
  obtain ⟨taken, rfl, -, -⟩ := h
  rw [List.length_append]
  omega

theorem length_lt (h : Past true ts rest) : rest.length < ts.length := by
  obtain ⟨taken, rfl, hne, -⟩ := h
  have := List.length_pos_iff.2 (hne rfl)
  rw [List.length_append]
  omega

theorem toEnd (h : Past s ts rest) : toEnd rest = toEnd ts := by
  obtain ⟨taken, rfl, -, hno⟩ := h
  exact (List.dropWhile_append_of_pos fun t ht => decide_eq_true (hno t ht)).symm

/-- The cursor keeps the end marker that stands last. -/
theorem front {before : List Token} {stop : Token} (h : Past s (before ++ [stop]) rest) (hstop : stop.kind = .eof) :
    ∃ after, rest = after ++ [stop] := by
  obtain ⟨taken, htaken, -, hno⟩ := h
  rcases List.append_eq_append_iff.1 htaken with ⟨beyond, rfl, hbeyond⟩ | ⟨after, -, hafter⟩
  · cases beyond with
    | nil => exact ⟨[], hbeyond.symm⟩
    | cons t beyond =>
      obtain ⟨rfl, -⟩ := List.cons.inj hbeyond
      exact (hno stop (List.mem_append_right _ (List.mem_cons_self ..)) hstop).elim
  · exact ⟨after, hafter⟩

end Past

namespace Reader

/-- Whether the reader takes a token whenever it succeeds; the others may find nothing to do. -/
def takes : Reader → Bool
  | .disjunctionTail _ | .conjunctionTail _ | .sumTail _ | .productTail _ | .primaryTail _ => false
  | .commaList _ | .params .. | .statements _ | .topLevel _ => false
  | _ => true

/-- The rank of a reader, whatever it is given; it may ask those of lower rank without having taken a token. -/
def rank : Reader → Nat
  | .atom => 0
  | .primary => 1
  | .power => 2
  | .factor => 3
  | .product => 4
  | .sum => 5
  | .comparison => 6
  | .negation => 7
  | .conjunction => 8
  | .disjunction => 9
  | .ternary => 10
  | .expr => 11
  | .commaList _ => 12
  | .expressionOrAssignment _ => 13
  | .simple _ => 14
  | .statement _ => 15
  | .suite _ => 16
  | .statements _ => 17
  | .branch .. => 18
  | .topLevel _ => 19
  | .block _ => 20
  | .definition .. => 21
  | .params .. => 22
  | .nonlocals _ => 23
  | .primaryTail _ => 24
  | .productTail _ => 25
  | .sumTail _ => 26
  | .conjunctionTail _ => 27
  | .disjunctionTail _ => 28

end Reader

namespace Plan

variable {r₀ : Reader} {cur : List Token} {strict : Bool}

/-- From the cursor `cur` on, the plan of `r₀` goes forwards; `strict` says that `r₀` has taken a token by then. -/
def Moves (r₀ : Reader) : Bool → List Token → Plan α → Prop
  | strict, cur, .done _ ts => Past (r₀.takes && !strict) cur ts
  | _, cur, .refuse _ ts => Past false cur ts
  | strict, cur, .ask r ts k => ∃ s, Past s cur ts ∧ (strict || s || decide (r.rank < r₀.rank)) = true ∧
    ∀ a rest, Moves r₀ (strict || s || r.takes) rest (k a rest)

namespace Moves

theorem done {a : α} (h : (!r₀.takes || strict) = true) : (Plan.done a cur).Moves r₀ strict cur :=
  (Past.refl cur).mono fun h' => by revert h h'; cases r₀.takes <;> cases strict <;> decide

theorem refuse {e : ParseError} : (Plan.refuse e cur : Plan α).Moves r₀ strict cur := .refl cur

theorem ask {r : Reader} {k : r.Answer → List Token → Plan α} (h : (strict || decide (r.rank < r₀.rank)) = true)
    (hk : ∀ a rest, (k a rest).Moves r₀ (strict || r.takes) rest) : (Plan.ask r cur k).Moves r₀ strict cur :=
  ⟨false, .refl cur, by rwa [Bool.or_false], by rwa [Bool.or_false]⟩

/-- What moves after some tokens moves before them. -/
theorem later {p : Plan α} (h : Past s cur ts) (hp : p.Moves r₀ (strict || s) ts) : p.Moves r₀ strict cur := by
  cases p with
  | done a rest =>
    refine (h.trans hp).mono fun hs => ?_
    revert hs
    cases r₀.takes <;> cases strict <;> cases s <;> decide
  | refuse e rest => exact (h.trans hp).weaken
  | ask r rest k =>
    obtain ⟨s', hs', hrank, hk⟩ := hp
    refine ⟨s || s', h.trans hs', ?_, ?_⟩
    · rwa [← Bool.or_assoc]
    · rwa [← Bool.or_assoc strict]

/-- The next token is known and taken. -/
theorem advance {p : Plan α} (hn : (next cur).kind = kind) (hp : p.Moves r₀ true (Parse.advance cur))
    (h : decide (kind = .eof) = false) : p.Moves r₀ strict cur :=
  later (.advance (hn ▸ of_decide_eq_false h)) (by rwa [Bool.or_true])

theorem need {k : Span → List Token → Plan α} (hk : ∀ span rest, (k span rest).Moves r₀ true rest)
    (h : decide (kind = .eof) = false) : (Plan.need kind cur k).Moves r₀ strict cur := by
  rw [Plan.need]
  split
  · next hn => exact advance hn (hk ..) h
  · exact refuse

theorem needName {k : String → Span → List Token → Plan α} (hk : ∀ name span rest, (k name span rest).Moves r₀ true rest) :
    (Plan.needName cur k).Moves r₀ strict cur := by
  rw [Plan.needName]
  split
  · next hn => exact advance hn (hk ..) rfl
  · exact refuse

theorem accept {yes : Span → List Token → Plan α} {no : Plan α} (hyes : ∀ span rest, (yes span rest).Moves r₀ true rest)
    (hno : no.Moves r₀ strict cur) (h : decide (kind = .eof) = false) :
    (Plan.accept kind cur yes no).Moves r₀ strict cur := by
  rw [Plan.accept]
  split
  · next hn => exact advance hn (hyes ..) h
  · exact hno

end Moves
end Plan

open Plan (Moves)

namespace Reader

theorem moves_comparison (ts : List Token) : (plan .comparison ts).Moves .comparison false ts := by
  simp only [plan]
  refine .ask rfl fun left r₁ => ?_
  split
  · next hop =>
    refine .advance rfl (.ask rfl fun right r₂ => ?_) (decide_eq_false (ne_eof rfl hop))
    split
    · exact .refuse
    · exact .done rfl
  · exact .done rfl

theorem moves_atom (ts : List Token) : (plan .atom ts).Moves .atom false ts := by
  simp only [plan]
  split
  · next hk => exact .advance hk (.done rfl) rfl
  · next hk => exact .advance hk (.ask rfl fun _ _ => .need (fun _ _ => .done rfl) rfl) rfl
  · next hk => exact .advance hk (.ask rfl fun _ _ => .need (fun _ _ => .done rfl) rfl) rfl
  · split
    · next hl => exact .advance rfl (.done rfl) (decide_eq_false (ne_eof rfl hl))
    · exact .later (.advance_or_stay ts) .refuse

theorem moves_params (close : Kind) (read : List Param) (ts : List Token) :
    (plan (.params close read) ts).Moves (.params close read) false ts := by
  simp only [plan]
  split
  · exact .done rfl
  · refine .later (.advance_if _ ts) (.needName fun name span r₁ => ?_)
    split
    · exact .refuse
    split
    · exact .refuse
    · exact .accept (fun _ _ => .ask rfl fun _ _ => .done rfl) (.done rfl) rfl

theorem moves_nonlocals (scope : Scope) (ts : List Token) : (plan (.nonlocals scope) ts).Moves (.nonlocals scope) false ts := by
  simp only [plan]
  refine .needName fun name span r₁ => ?_
  split
  · exact .refuse
  split
  · exact .refuse
  · exact .accept (fun _ _ => .ask rfl fun _ _ => .done rfl) (.done rfl) rfl

theorem moves_expressionOrAssignment (scope : Scope) (ts : List Token) :
    (plan (.expressionOrAssignment scope) ts).Moves (.expressionOrAssignment scope) false ts := by
  simp only [plan]
  refine .ask rfl fun left r₁ => .accept (fun _ r₂ => ?_) (.done rfl) rfl
  split
  · exact .ask rfl fun _ _ => .done rfl
  · exact .refuse

theorem moves_simple (scope : Scope) (ts : List Token) : (plan (.simple scope) ts).Moves (.simple scope) false ts := by
  simp only [plan]
  split
  · next hk => exact .advance hk (.done rfl) rfl
  · next hk =>
    split
    · exact .advance hk .refuse rfl
    split
    · exact .advance hk (.done rfl) rfl
    · exact .advance hk (.ask rfl fun _ _ => .done rfl) rfl
  · next hk =>
    split
    · exact .advance hk .refuse rfl
    · exact .advance hk (.ask rfl fun _ _ => .done rfl) rfl
  · exact .ask rfl fun _ _ => .done rfl

theorem moves_topLevel (scope : Scope) (ts : List Token) : (plan (.topLevel scope) ts).Moves (.topLevel scope) false ts := by
  simp only [plan]
  split
  · exact .done rfl
  · next hk => exact .advance hk (.ask rfl fun _ _ => .done rfl) rfl
  · exact .refuse
  · exact .ask rfl fun _ _ => .ask rfl fun _ _ => .done rfl

/-- The plan of every reader goes forwards from where it is. -/
theorem moves_plan (r : Reader) (ts : List Token) : (r.plan ts).Moves r false ts := by
  -- an `rfl` behind `ask` says that the rank is lower or a token was taken, one behind `done` that one was taken if it had to be
  cases r <;> simp only [plan]
  case expr =>
    refine .accept (fun _ _ => .ask rfl fun _ _ => .need (fun _ _ => ?_) rfl) (.ask rfl fun _ _ => .done rfl) rfl
    exact .ask rfl fun _ _ => .done rfl
  case ternary =>
    refine .ask rfl fun _ _ => .accept (fun _ _ => .ask rfl fun _ _ => ?_) (.done rfl) rfl
    exact .need (fun _ _ => .ask rfl fun _ _ => .done rfl) rfl
  case disjunction => exact .ask rfl fun _ _ => .ask rfl fun _ _ => .done rfl
  case disjunctionTail left => exact .accept (fun _ _ => .ask rfl fun _ _ => .ask rfl fun _ _ => .done rfl) (.done rfl) rfl
  case conjunction => exact .ask rfl fun _ _ => .ask rfl fun _ _ => .done rfl
  case conjunctionTail left => exact .accept (fun _ _ => .ask rfl fun _ _ => .ask rfl fun _ _ => .done rfl) (.done rfl) rfl
  case negation => exact .accept (fun _ _ => .ask rfl fun _ _ => .done rfl) (.ask rfl fun _ _ => .done rfl) rfl
  case comparison => exact moves_comparison ts
  case sum => exact .ask rfl fun _ _ => .ask rfl fun _ _ => .done rfl
  case sumTail left =>
    split
    · next hop => exact .advance rfl (.ask rfl fun _ _ => .ask rfl fun _ _ => .done rfl) (decide_eq_false (ne_eof rfl hop))
    · exact .done rfl
  case product => exact .ask rfl fun _ _ => .ask rfl fun _ _ => .done rfl
  case productTail left =>
    split
    · next hop => exact .advance rfl (.ask rfl fun _ _ => .ask rfl fun _ _ => .done rfl) (decide_eq_false (ne_eof rfl hop))
    · exact .done rfl
  case factor =>
    split
    · next hop => exact .advance rfl (.ask rfl fun _ _ => .done rfl) (decide_eq_false (ne_eof rfl hop))
    · exact .ask rfl fun _ _ => .done rfl
  case power => exact .ask rfl fun _ _ => .accept (fun _ _ => .ask rfl fun _ _ => .done rfl) (.done rfl) rfl
  case primary => exact .ask rfl fun _ _ => .ask rfl fun _ _ => .done rfl
  case primaryTail head =>
    refine .accept (fun _ _ => .ask rfl fun _ _ => .need (fun _ _ => .ask rfl fun _ _ => .done rfl) rfl) ?_ rfl
    exact .accept (fun _ _ => .ask rfl fun _ _ => .need (fun _ _ => .ask rfl fun _ _ => .done rfl) rfl) (.done rfl) rfl
  case commaList close =>
    split
    · exact .done rfl
    · exact .ask rfl fun _ _ => .accept (fun _ _ => .ask rfl fun _ _ => .done rfl) (.done rfl) rfl
  case atom => exact moves_atom ts
  case params close read => exact moves_params close read ts
  case nonlocals scope => exact moves_nonlocals scope ts
  case expressionOrAssignment scope => exact moves_expressionOrAssignment scope ts
  case simple scope => exact moves_simple scope ts
  case statement scope =>
    refine .accept (fun _ _ => .ask rfl fun _ _ => .done rfl) (.accept (fun _ _ => .ask rfl fun _ _ => .done rfl) ?_ rfl) rfl
    exact .ask rfl fun _ _ => .need (fun _ _ => .done rfl) rfl
  case definition start scope =>
    refine .needName fun _ _ _ => .need (fun _ _ => .ask rfl fun _ _ => ?_) rfl
    exact .need (fun _ _ => .need (fun _ _ => .ask rfl fun _ _ => .done rfl) rfl) rfl
  case suite scope =>
    refine .accept (fun _ _ => .need (fun _ _ => .ask rfl fun _ _ => .need (fun _ _ => .done rfl) rfl) rfl) ?_ rfl
    exact .ask rfl fun _ _ => .need (fun _ _ => .done rfl) rfl
  case statements scope =>
    split
    · exact .done rfl
    · exact .ask rfl fun _ _ => .ask rfl fun _ _ => .done rfl
  case branch start scope =>
    refine .ask rfl fun _ _ => .ask rfl fun _ _ => .accept (fun _ _ => .ask rfl fun _ _ => .done rfl) ?_ rfl
    exact .accept (fun _ _ => .ask rfl fun _ _ => .done rfl) (.done rfl) rfl
  case block scope => exact .need (fun _ _ => .ask rfl fun _ _ => .done rfl) rfl
  case topLevel scope => exact moves_topLevel scope ts

end Reader

/-! The course of a reader -/

namespace Reader

/-- What lies before a reader: the tokens first, then the readers that it may ask without taking one. -/
def weight (r : Reader) (ts : List Token) : Nat := 32 * ts.length + r.rank

theorem rank_lt (r : Reader) : r.rank < 32 := by
  unfold rank
  split <;> decide

theorem weight_lt {r₀ r : Reader} (h : Past s ts rest) (hr : (s || decide (r.rank < r₀.rank)) = true) :
    r.weight rest < r₀.weight ts := by
  have hrank := r.rank_lt
  unfold weight
  cases s with
  | true =>
    have hlen := h.length_lt
    omega
  | false =>
    have hlen := h.length_le
    have hlt : r.rank < r₀.rank := of_decide_eq_true hr
    omega

end Reader

/-- From `ts` on the cursor goes forwards, and where the reader succeeds it has been everywhere else before. -/
structure Course.Forward (c : Course α) (strict : Bool) (ts : List Token) : Prop where
  ordered : (ts :: c.path).Pairwise (Past false)
  ends : ∀ a rest, c.outcome = .ok (a, rest) → Past strict ts rest ∧ ∀ cur ∈ c.path, Past false cur rest

namespace Course.Forward

theorem done {a : α} (h : Past s ts rest) : (⟨[rest], .ok (a, rest)⟩ : Course α).Forward s ts where
  ordered := List.pairwise_pair.2 h.weaken
  ends a' rest' he := by
    cases he
    exact ⟨h, List.forall_mem_singleton.2 (.refl rest)⟩

theorem refuse {e : ParseError} (h : Past s ts rest) : (⟨[rest], .error e⟩ : Course α).Forward s' ts where
  ordered := List.pairwise_pair.2 h.weaken
  ends := nofun

/-- A step before the first. -/
theorem cons {path : List (List Token)} (h : Past s ts rest) (hp : (rest :: path).Pairwise (Past false)) :
    (ts :: rest :: path).Pairwise (Past false) :=
  List.pairwise_cons.2 ⟨List.forall_mem_cons.2 ⟨h.weaken, fun _ hc => h.weaken.trans (List.rel_of_pairwise_cons hp hc)⟩, hp⟩

/-- A reader that is asked fails. -/
theorem fail {path : List (List Token)} {e : ParseError} (h : Past s ts rest)
    (hc : (⟨path, .error e⟩ : Course β).Forward s' rest) : (⟨rest :: path, .error e⟩ : Course α).Forward strict ts where
  ordered := cons h hc.ordered
  ends := nofun

/-- A reader that is asked succeeds, and the plan goes on where it stopped. -/
theorem andThen {path : List (List Token)} {c : Course α} {b : β} (h : Past s ts rest)
    (hp : (⟨path, .ok (b, more)⟩ : Course β).Forward s' rest) (hc : c.Forward strict more) :
    (⟨rest :: path ++ c.path, c.outcome⟩ : Course α).Forward (s || s' || strict) ts := by
  obtain ⟨hmore, hbefore⟩ := hp.ends b more rfl
  have hall : ∀ cur ∈ rest :: path, Past false cur more := List.forall_mem_cons.2 ⟨hmore.weaken, hbefore⟩
  constructor
  · refine cons h (List.pairwise_append.2 ⟨hp.ordered, hc.ordered.of_cons, fun cur hcur cur' hcur' => ?_⟩)
    exact (hall cur hcur).trans (List.rel_of_pairwise_cons hc.ordered hcur')
  · intro a last he
    obtain ⟨hlast, hbefore'⟩ := hc.ends a last he
    refine ⟨(h.trans hmore).trans hlast, List.forall_mem_append.2 ⟨fun cur hcur => ?_, hbefore'⟩⟩
    exact (hall cur hcur).trans hlast.weaken

theorem mono {c : Course α} (h : c.Forward s ts) (hs : s' = true → s = true) : c.Forward s' ts where
  ordered := h.ordered
  ends a rest he := ⟨(h.ends a rest he).1.mono hs, (h.ends a rest he).2⟩

end Course.Forward

/-- The run of a reader comes to an end, with what the reader answers, and only goes forwards. -/
def Concludes (run : (r : Reader) → List Token → Option (Course r.Answer)) (r : Reader) (ts : List Token) : Prop :=
  ∃ c, run r ts = some c ∧ c.outcome = r.answer ts ∧ c.Forward r.takes ts

/-- A plan comes to an end if all runs of less weight do. -/
theorem Plan.Moves.concludes {run : (r : Reader) → List Token → Option (Course r.Answer)} {r₀ : Reader} {ts₀ : List Token}
    (hbelow : ∀ r ts, r.weight ts < r₀.weight ts₀ → Concludes run r ts) {p : Plan α} {cur : List Token} {strict : Bool}
    (hp : p.Moves r₀ strict cur) (hcur : Past strict ts₀ cur) :
    ∃ c, p.attempt run = some c ∧ c.outcome = p.follow Reader.answer ∧ c.Forward (r₀.takes && !strict) cur := by
  induction p generalizing strict cur with
  | done a ts => exact ⟨_, rfl, rfl, .done hp⟩
  | refuse e ts => exact ⟨_, rfl, rfl, .refuse hp⟩
  | ask r ts k ih =>
    obtain ⟨s, hts, hrank, hk⟩ := hp
    obtain ⟨⟨path, outcome⟩, hrun, houtcome, hforward⟩ := hbelow r ts (Reader.weight_lt (hcur.trans hts) hrank)
    dsimp only at houtcome
    subst houtcome
    simp only [attempt, hrun, follow]
    cases hanswer : r.answer ts with
    | error e => exact ⟨_, rfl, rfl, .fail hts (hanswer ▸ hforward)⟩
    | ok v =>
      rw [hanswer] at hforward
      obtain ⟨hrest, -⟩ := hforward.ends v.1 v.2 rfl
      obtain ⟨c, hattempt, hfollow, hc⟩ := ih v.1 v.2 (hk v.1 v.2) ((hcur.trans hts).trans hrest)
      refine ⟨⟨ts :: path ++ c.path, c.outcome⟩, ?_, hfollow, (Course.Forward.andThen hts hforward hc).mono ?_⟩
      · simp only [hattempt, Option.map_some]
      · cases r₀.takes <;> cases strict <;> cases s <;> cases r.takes <;> decide

/-- With runs that come to an end more often, a plan that came to its end does so in the same way. -/
theorem Plan.attempt_mono {run run' : (r : Reader) → List Token → Option (Course r.Answer)}
    (h : ∀ r ts c, run r ts = some c → run' r ts = some c) {p : Plan α} {c : Course α} (hc : p.attempt run = some c) :
    p.attempt run' = some c := by
  induction p generalizing c with
  | done a ts => exact hc
  | refuse e ts => exact hc
  | ask r ts k ih =>
    rw [attempt] at hc ⊢
    cases hrun : run r ts with
    | none =>
      rw [hrun] at hc
      cases hc
    | some asked =>
      rw [hrun] at hc
      rw [h r ts asked hrun]
      obtain ⟨path, error | v⟩ := asked
      · exact hc
      · obtain ⟨d, hd, rfl⟩ := Option.map_eq_some_iff.1 hc
        simp only [ih v.1 v.2 hd, Option.map_some]

namespace Reader

/-- With more depth than weight a reader comes to an end. -/
theorem runWithin_concludes (depth : Nat) (r : Reader) (ts : List Token) (h : r.weight ts < depth) :
    Concludes (runWithin depth) r ts := by
  induction depth generalizing r ts with
  | zero => exact (Nat.not_lt_zero _ h).elim
  | succ depth ih =>
    have hbelow : ∀ r' ts', r'.weight ts' < r.weight ts → Concludes (runWithin depth) r' ts' := fun r' ts' h' =>
      ih r' ts' (by omega)
    obtain ⟨c, hattempt, hfollow, hc⟩ := (r.moves_plan ts).concludes hbelow (.refl ts)
    rw [Bool.not_false, Bool.and_true] at hc
    refine ⟨c, hattempt, hfollow.trans (follow_plan r ts fun scope hr a rest ha => ?_), hc⟩
    subst hr
    obtain ⟨c', -, hc', hforward⟩ := hbelow (.statement scope) ts (weight_lt (.refl ts) rfl)
    exact (hforward.ends a rest (hc'.trans ha)).1.toEnd

/-- More depth changes nothing. -/
theorem runWithin_mono {m n : Nat} (h : m ≤ n) {r : Reader} {c : Course r.Answer} (hc : runWithin m r ts = some c) :
    runWithin n r ts = some c := by
  induction m generalizing n r ts with
  | zero => cases hc
  | succ m ih =>
    obtain ⟨n, rfl⟩ := Nat.exists_eq_add_of_le' (Nat.zero_lt_of_lt h)
    exact Plan.attempt_mono (fun r' ts' c' => ih (Nat.le_of_succ_le_succ h)) hc

/-- A reader that succeeds leaves the cursor where it was or further on. -/
theorem past_of_answer {r : Reader} {a : r.Answer} (h : r.answer ts = .ok (a, rest)) : Past r.takes ts rest := by
  obtain ⟨c, -, hc, hforward⟩ := r.runWithin_concludes (r.weight ts + 1) ts (Nat.lt_succ_self _)
  exact (hforward.ends a rest (hc.trans h)).1

end Reader

/-! Readers within readers -/

/-- Followed with what the readers answer, the plan comes to ask a reader. -/
inductive Plan.Asks (r : Reader) (ts : List Token) : Plan α → Prop
  | here {k : r.Answer → List Token → Plan α} : Asks r ts (.ask r ts k)
  | later {r' : Reader} {ts' rest : List Token} {a : r'.Answer} {k : r'.Answer → List Token → Plan α}
    (h : r'.answer ts' = .ok (a, rest)) (hk : Asks r ts (k a rest)) : Asks r ts (.ask r' ts' k)

/-- The reader `a.1` at the cursor `a.2` asks `b.1` at `b.2`. -/
def Calls (a b : Reader × List Token) : Prop := (a.1.plan a.2).Asks b.1 b.2

/-- Further on, or at the same token and of lower rank. -/
def Beneath (a b : Reader × List Token) : Prop := ∃ s, Past s a.2 b.2 ∧ (s || decide (b.1.rank < a.1.rank)) = true

theorem Plan.Moves.asks {r₀ r : Reader} {p : Plan α} {cur : List Token} {strict : Bool} (hp : p.Moves r₀ strict cur)
    (h : p.Asks r ts) :
    ∃ s, Past s cur ts ∧ (strict || s || decide (r.rank < r₀.rank)) = true := by
  induction h generalizing strict cur with
  | here =>
    obtain ⟨s, hts, hrank, -⟩ := hp
    exact ⟨s, hts, hrank⟩
  | later ha _ ih =>
    obtain ⟨s, hts, -, hk⟩ := hp
    obtain ⟨s', hts', hrank⟩ := ih (hk _ _)
    refine ⟨_, (hts.trans (Reader.past_of_answer ha)).trans hts', ?_⟩
    rwa [← Bool.or_assoc, ← Bool.or_assoc]

theorem Calls.beneath {a b : Reader × List Token} (h : Calls a b) : Beneath a b := (a.1.moves_plan a.2).asks h

theorem Beneath.trans {a b c : Reader × List Token} (h : Beneath a b) (h' : Beneath b c) : Beneath a c := by
  obtain ⟨s, hb, hs⟩ := h
  obtain ⟨s', hc, hs'⟩ := h'
  refine ⟨s || s', hb.trans hc, ?_⟩
  rw [Bool.or_eq_true, Bool.or_eq_true, decide_eq_true_eq]
  rcases Bool.or_eq_true .. ▸ hs with hs | hs
  · exact .inl (.inl hs)
  rcases Bool.or_eq_true .. ▸ hs' with hs' | hs'
  · exact .inl (.inr hs')
  · exact .inr (Nat.lt_trans (of_decide_eq_true hs') (of_decide_eq_true hs))

theorem beneath_of_transGen {a b : Reader × List Token} (h : Relation.TransGen Calls a b) : Beneath a b := by
  induction h with
  | single h => exact h.beneath
  | tail _ h ih => exact ih.trans h.beneath

/-- A reader that is asked again within itself has fewer tokens before it. -/
theorem past_of_transGen {a b : Reader × List Token} (h : Relation.TransGen Calls a b) (hrank : a.1.rank ≤ b.1.rank) :
    Past true a.2 b.2 := by
  obtain ⟨s, hs, htaken⟩ := beneath_of_transGen h
  rw [decide_eq_false (Nat.not_lt.2 hrank), Bool.or_false] at htaken
  exact htaken ▸ hs

/-! Programs -/

/-- Reading tokens of which only the last is an end marker comes to an end, at a depth that grows with their number. The
cursor only goes forwards and keeps the end marker before it, a reader that is asked again within itself has fewer tokens
left, and after success only the end marker is left. -/
theorem program_terminates {front : List Token} {stop : Token} (hfront : ∀ t ∈ front, t.kind ≠ .eof) (hstop : stop.kind = .eof) :
    ∃ course : Course (List Node × Scope × Nat),
      (∀ depth, 32 * (front.length + 2) ≤ depth →
        (Reader.topLevel { isFunction := false }).runWithin depth (front ++ [stop]) = some course) ∧
      program (front ++ [stop]) = course.outcome.map (fun v => .program ⟨0, v.1.2.2⟩ v.1.2.1.declarations v.1.1) ∧
      ((front ++ [stop]) :: course.path).Pairwise (Past false) ∧
      (∀ cursor ∈ course.path, ∃ left, cursor = left ++ [stop]) ∧
      (∀ a rest, course.outcome = .ok (a, rest) → rest = [stop]) ∧
      ∀ a b, Relation.TransGen Calls a b → a.1.rank ≤ b.1.rank → Past true a.2 b.2 := by
  have hweight : (Reader.topLevel { isFunction := false }).weight (front ++ [stop]) < 32 * (front.length + 2) := by
    simp only [Reader.weight, Reader.rank, List.length_append, List.length_singleton]
    omega
  obtain ⟨course, hrun, hout, hforward⟩ := Reader.runWithin_concludes _ _ _ hweight
  refine ⟨course, fun _ h => Reader.runWithin_mono h hrun, ?_, hforward.ordered, fun cursor hc => ?_, fun a rest ha => ?_,
    fun a b => past_of_transGen⟩
  · rw [hout, program]
    simp only [Reader.answer]
    cases topLevel { isFunction := false } (front ++ [stop]) <;> rfl
  · exact (List.rel_of_pairwise_cons hforward.ordered hc).front hstop
  · rw [hout, Reader.answer] at ha
    cases htop : topLevel { isFunction := false } (front ++ [stop]) with
    | error e => cases htop ▸ ha
    | ok v =>
      cases htop ▸ ha
      rw [toEnd, List.dropWhile_append_of_pos fun t ht => decide_eq_true (hfront t ht)]
      exact List.dropWhile_cons_of_neg (by simpa using hstop)

/-- A call that is not closed. -/
theorem program_terminates_unclosed : ∃ course : Course (List Node × Scope × Nat),
    (Reader.topLevel { isFunction := false }).runWithin 128
        [⟨.ident "f", ⟨0, 1⟩⟩, ⟨.symbol .lparen, ⟨1, 2⟩⟩, ⟨.eof, ⟨2, 2⟩⟩] = some course ∧
      ∀ cursor ∈ course.path, ∃ left, cursor = left ++ [⟨.eof, ⟨2, 2⟩⟩] := by
  have hfront : ∀ t ∈ ([⟨.ident "f", ⟨0, 1⟩⟩, ⟨.symbol .lparen, ⟨1, 2⟩⟩] : List Token), t.kind ≠ .eof := by decide
  have hstop : (⟨.eof, ⟨2, 2⟩⟩ : Token).kind = .eof := rfl
  obtain ⟨course, hrun, -, -, hkeep, -⟩ := program_terminates hfront hstop
  exact ⟨course, hrun 128 (Nat.le_refl _), hkeep⟩

end CseMachine.Parse

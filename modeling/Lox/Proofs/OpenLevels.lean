import Lox.Proofs.Beginnings
import Lox.Proofs.Stopping

/-!
# The levels that a failure leaves open

A parser that fails stops where it stands, and a level that is open there stays open: it is closed
only behind the part that it was opened for. The next request to the same parser then starts with
fewer levels to open than the one before it.

Each rule of the parser is shown to fail at a `Fault` of a phrase that has begun, with as many
levels open as before and those that are open there, and with an error that is about the token
there, one in front of it, or the end of the text behind it (`Parser.Blames`). As for the phrases
that are read to their end, this is an induction on the number of levels that may still be opened.
-/

namespace Lox

/-! ## Where a parser fails -/

namespace Parser

/-- What the error of a parser is about that has passed the tokens `ts` and stands at `p'`.
`ending` is what follows the last token of the text. -/
inductive Blames (ending : Ending) (ts : List Token) (p' : Parser) : SyntaxError → Prop where
  /-- There is no token behind the one that the parser looks at, but an error of the text. -/
  | lexical {error : LexError} :
      ending.next.1 = .error error → p'.ahead.tokens = [] → Blames ending ts p' (.lexical error)
  | unexpectedToken {expected : Expectation} :
      p'.ahead.ending = ending → p'.current.kind ≠ expected.kind →
      Blames ending ts p' (.unexpectedToken expected p'.current)
  | expectedExpression :
      p'.ahead.ending = ending → p'.current.kind ∉ Rule.primary.starts →
      Blames ending ts p' (.expectedExpression p'.current)
  | tooManyArguments :
      p'.ahead.ending = ending → Blames ending ts p' (.tooManyArguments p'.current.line)
  | invalidAssignmentTarget {equals : Token} :
      equals ∈ ts → Blames ending ts p' (.invalidAssignmentTarget equals.line)
  /-- The token that opens the level has been passed. -/
  | tooDeep {opening : Token} : opening ∈ ts → Blames ending ts p' (.tooDeep opening.line)
  /-- The level of an argument list is opened at the token behind its parenthesis. -/
  | argumentsTooDeep : p'.ahead.ending = ending → Blames ending ts p' (.tooDeep p'.current.line)

/-- What a failure leaves behind the tokens of a text. If the text has an error there, the parser
has come to it. -/
def LeavesEnding (ending : Ending) (p' : Parser) : SyntaxError → Prop
  | .lexical error => ending.next.1 = .error error ∧ p'.ahead.tokens = []
  | _ => p'.ahead.ending = ending

/-- A parser that fails without having passed anything, as the text has an error behind the token
that it looks at. -/
structure Stuck (p : Parser) (error : SyntaxError) (p' : Parser) : Prop where
  pending : p'.pending = p.pending
  depth : p'.depth = p.depth
  ready : p'.Ready
  lexical : ∃ lexical, error = .lexical lexical
  ending : LeavesEnding p.ahead.ending p' error

/-- A parser that fails behind the tokens `ts` of a phrase, with `k` more levels open than at its
start. -/
structure Halts (rule : Rule) (room : Nat) (p : Parser) (error : SyntaxError) (p' : Parser)
    (k : Nat) (ts : List Token) : Prop where
  pending : p.pending = ts ++ p'.pending
  depth : p'.depth = p.depth + k
  ready : p'.Ready
  /-- Those levels are open behind the tokens. One that could not be opened would be one more. -/
  begun : Begun (room + error.unopened) (k + error.unopened) rule ts
  /-- A level cannot be opened only if all others are open. -/
  full : error.unopened = 1 → k = room
  blames : Blames p.ahead.ending ts p' error

/-- The same of a parser of a rule, which fails because the token that it looks at is a mistake. -/
structure Errs (rule : Rule) (room : Nat) (p : Parser) (error : SyntaxError) (p' : Parser)
    (k : Nat) (ts : List Token) : Prop where
  pending : p.pending = ts ++ p'.pending
  depth : p'.depth = p.depth + k
  ready : p'.Ready
  fault : Fault p'.current room k rule ts error
  ending : LeavesEnding p.ahead.ending p' error

variable {rule next : Rule} {room n k : Nat} {p p' q q' : Parser}
  {error : SyntaxError} {ts us vs ws : List Token}

/-- The token that a parser has started at is the first one that it has passed, or the one that it
still looks at. -/
theorem Errs.first (h : Errs rule room p error p' k ts) :
    (ts.headD p'.current).kind = p.current.kind := by
  have hpending := h.pending
  unfold Parser.pending at hpending
  cases ts with
  | cons t ts =>
    split at hpending
    · cases hpending
    · rw [(List.cons.inj hpending).1]; rfl
  | nil =>
    split at hpending <;> rename_i hk
    · split at hpending <;> rename_i hk'
      · exact hk'.trans hk.symm
      · cases hpending
    · split at hpending
      · cases hpending
      · rw [(List.cons.inj hpending).1]; rfl

/-- What an error is about does not change if more tokens are passed in front of it. -/
theorem Blames.mono {ending : Ending} (h : Blames ending ts p' error) (hts : ts ⊆ us) :
    Blames ending us p' error := by
  cases h with
  | lexical herror hahead => exact .lexical herror hahead
  | unexpectedToken hsame hkind => exact .unexpectedToken hsame hkind
  | expectedExpression hsame hkind => exact .expectedExpression hsame hkind
  | tooManyArguments hsame => exact .tooManyArguments hsame
  | invalidAssignmentTarget hmem => exact .invalidAssignmentTarget (hts hmem)
  | tooDeep hmem => exact .tooDeep (hts hmem)
  | argumentsTooDeep hsame => exact .argumentsTooDeep hsame

/-- What a mistake is about, by induction on its place. It is about the token there, or about one of
those in front of it, which are still there in a longer phrase. -/
theorem blames_of_fault {t : Token} {ending : Ending} (h : Fault t room k rule ts error)
    (ht : p'.current = t) (hending : LeavesEnding ending p' error) : Blames ending ts p' error := by
  induction h with
  | lexical _ => exact .lexical hending.1 hending.2
  | noExpression hk => subst ht; exact .expectedExpression hending hk
  | unclosedGrouping _ _ _ hk => subst ht; exact .unexpectedToken hending hk
  | noName _ _ hk => subst ht; exact .unexpectedToken hending hk
  | unclosedArguments _ _ _ _ _ _ _ hk => subst ht; exact .unexpectedToken hending hk
  | extraArgument _ _ _ => subst ht; exact .tooManyArguments hending
  | noTarget _ _ _ _ _ => exact .invalidAssignmentTarget (by simp)
  | signTooDeep _ => exact .tooDeep (by simp)
  | groupingTooDeep _ => exact .tooDeep (by simp)
  | argumentsTooDeep _ _ => subst ht; exact .argumentsTooDeep hending
  | valueTooDeep _ _ => exact .tooDeep (by simp)
  | tighter _ _ _ ih => exact ih hending
  | operand _ _ _ _ ih => exact (ih hending).mono fun _ hmem => by simp [hmem]
  | sign _ _ ih => exact (ih hending).mono (List.subset_cons_self _ _)
  | grouping _ _ ih => exact (ih hending).mono (List.subset_cons_self _ _)
  | argument _ _ _ _ _ _ ih => exact (ih hending).mono fun _ hmem => by simp [hmem]
  | value _ _ _ ih => exact (ih hending).mono fun _ hmem => by simp [hmem]

theorem Errs.halts (h : Errs rule room p error p' k ts) : Halts rule room p error p' k ts :=
  ⟨h.pending, h.depth, h.ready, h.fault.begun, h.fault.full, blames_of_fault h.fault rfl h.ending⟩

/-- A parser fails at a mistake behind what it has passed, in the levels that were open. -/
theorem errs_here (hpass : p.Passes ts p') (hf : Fault p'.current room 0 rule ts error)
    (hending : LeavesEnding p.ahead.ending p' error) : Errs rule room p error p' 0 ts :=
  ⟨hpass.pending, hpass.depth, hpass.ready, hf, hending⟩

/-- What is stuck behind the beginning of a phrase has failed there. -/
theorem errs_of_stuck (hpass : p.Passes ts q) (h : q.Stuck error p') (hb : Begun room 0 rule ts) :
    Errs rule room p error p' 0 ts := by
  refine ⟨?_, ?_, h.ready, ?_, ?_⟩
  · rw [hpass.pending, h.pending]
  · rw [h.depth, hpass.depth, Nat.add_zero]
  · obtain ⟨lexical, rfl⟩ := h.lexical
    exact .lexical hb
  · rw [← hpass.ending]
    exact h.ending

/-- A failure in a part is a failure of the whole, behind what the whole has before the part. -/
theorem Errs.after (h : Errs next room q error p' k vs) (hpass : p.Passes us q)
    (hf : Fault p'.current room k next vs error → Fault p'.current room k rule (us ++ vs) error) :
    Errs rule room p error p' k (us ++ vs) := by
  refine ⟨?_, ?_, h.ready, hf h.fault, ?_⟩
  · rw [hpass.pending, h.pending, List.append_assoc]
  · rw [h.depth, hpass.depth]
  · rw [← hpass.ending]
    exact h.ending

/-- The same for a part one level further in, behind what else that level holds. The level is one
more that stays open. -/
theorem Errs.inside (h : Errs next n q' error p' k vs) (hpass : p.Passes us q)
    (hpass' : Passes { q with depth := q.depth + 1 } ws q')
    (hf : Fault p'.current n k next vs error →
      Fault p'.current (n + 1) (k + 1) rule (us ++ (ws ++ vs)) error) :
    Errs rule (n + 1) p error p' (k + 1) (us ++ (ws ++ vs)) := by
  have hpend : q.pending = ws ++ q'.pending := hpass'.pending
  have hdepth : q'.depth = q.depth + 1 := hpass'.depth
  have hending : q'.ahead.ending = q.ahead.ending := hpass'.ending
  refine ⟨?_, ?_, h.ready, hf h.fault, ?_⟩
  · rw [hpass.pending, hpend, h.pending, List.append_assoc, List.append_assoc]
  · rw [h.depth, hdepth, hpass.depth]
    omega
  · rw [← hpass.ending, ← hending]
    exact h.ending

end Parser

open Lox.Parser (Errs Halts Stuck)

namespace Parse

variable {rule next : Rule} {room : Nat} {p p' : Parser} {error : SyntaxError}

/-- A parser that fails where a phrase of the rule has begun, with the levels of that place left
open. -/
def Fails (rule : Rule) (room : Nat) (read : Parse Expr) : Prop :=
  ∀ (p p' : Parser) (error : SyntaxError), p.Ready → read p = .error error p' →
    ∃ k ts, Errs rule room p error p' k ts

/-- A step of a loop that fails in the same way behind the phrase it was to extend. -/
def ExtendFails (rule : Rule) (room : Nat) (extend? : Expr → Parse (Option Expr)) : Prop :=
  ∀ (p q p' : Parser) (e : Expr) (error : SyntaxError) (ts : List Token),
    p.Passes ts q → Phrase rule room ts e → extend? e q = .error error p' →
    ∃ k us, Errs rule room p error p' k us

/-- The levels that may still be opened fail in the same way. -/
def FailsInside (room : Nat) : Prop :=
  ∀ n, room = n + 1 →
    Fails .assignment n (assignment (inside n)) ∧ Fails .unary n (unary (inside n))

/-! ## Single tokens -/

/-- A step to the next token fails only if the text has an error there. -/
theorem advance_stuck (hp : p.Ready) (h : advance p = .error error p') : p.Stuck error p' := by
  obtain ⟨current, ⟨tokens, ending⟩, depth⟩ := p
  cases tokens with
  | cons next tokens => cases h
  | nil =>
      cases ending with
      | finished line => cases h
      | unexpected c line =>
          cases h
          exact ⟨rfl, rfl, hp, ⟨_, rfl⟩, rfl, rfl⟩
      | unterminated line last =>
          cases h
          -- at its end a text has no error in front of it, so this is not the end
          have hready : Parser.Ready ⟨current, ⟨[], .finished last⟩, depth⟩ := by
            refine ⟨hp.lexed, fun hk => ?_⟩
            obtain ⟨_, -, hahead⟩ := hp.at_end hk
            cases hahead
          exact ⟨rfl, rfl, hready, ⟨_, rfl⟩, rfl, rfl⟩

theorem accept?_stuck {kinds : List TokenKind} (hp : p.Ready)
    (h : accept? kinds p = .error error p') : p.Stuck error p' := by
  have h' : (if p.current.kind ∈ kinds then advance >>= fun t => pure (some t)
      else pure none : Parse (Option Token)) p = .error error p' := h
  split at h'
  · exact advance_stuck hp (Step.bind_pure_eq_error.mp h')
  · cases h'

/-- What has to follow is not there, or it is the last token in front of an error of the text. -/
theorem expect_stuck {expected : Expectation} (hp : p.Ready)
    (h : expect expected p = .error error p') :
    p.Stuck error p' ∨ p.current.kind ≠ expected.kind
      ∧ error = .unexpectedToken expected p.current ∧ p' = p := by
  have h' : (if p.current.kind = expected.kind then advance
      else throw (.unexpectedToken expected p.current) : Parse Token) p = .error error p' := h
  split at h'
  · exact Or.inl (advance_stuck hp h')
  · rename_i hkind
    cases h'
    exact Or.inr ⟨hkind, rfl, rfl⟩

/-- It has to follow behind the beginning of a phrase. -/
theorem expect_errs {expected : Expectation} {q : Parser} {ts : List Token} (hpass : p.Passes ts q)
    (hb : Begun room 0 rule ts)
    (hf : q.current.kind ≠ expected.kind →
      Fault q.current room 0 rule ts (.unexpectedToken expected q.current))
    (h : expect expected q = .error error p') : Errs rule room p error p' 0 ts := by
  rcases expect_stuck hpass.ready h with hstuck | ⟨hk, rfl, rfl⟩
  · exact Parser.errs_of_stuck hpass hstuck hb
  · exact Parser.errs_here hpass (hf hk) hpass.ending

/-! ## Parts one level further in -/

/-- A part one level further in fails because that level cannot be opened, or it fails itself. -/
theorem nested_eq_error {α : Type} {line : Nat} {part : Level → Parse α}
    (h : nested (inside room) line part p = .error error p') :
    (room = 0 ∧ error = .tooDeep line ∧ p' = p)
      ∨ ∃ n, room = n + 1
        ∧ part ⟨assignment (inside n), unary (inside n)⟩ { p with depth := p.depth + 1 }
          = .error error p' := by
  cases room with
  | zero =>
      cases h
      exact Or.inl ⟨rfl, rfl, rfl⟩
  | succ n =>
      refine Or.inr ⟨n, rfl, ?_⟩
      have h' : (modify (fun p : Parser => { p with depth := p.depth + 1 }) >>= fun _ =>
          part ⟨assignment (inside n), unary (inside n)⟩ >>= fun result =>
            modify (fun p : Parser => { p with depth := p.depth - 1 }) >>= fun _ =>
              pure result : Parse α) p = .error error p' := h
      rcases Step.bind_eq_error.mp h' with h₁ | ⟨_, p₁, h₁, h₂⟩
      · cases h₁
      · cases h₁
        rcases Step.bind_eq_error.mp h₂ with h₃ | ⟨_, _, _, h₄⟩
        · exact h₃
        · cases h₄

/-- It succeeds if that level can be opened and the part succeeds there. -/
theorem nested_inside_eq_ok {α : Type} {line : Nat} {part : Level → Parse α} {a : α}
    (h : nested (inside room) line part p = .ok a p') :
    ∃ n q, room = n + 1
      ∧ part ⟨assignment (inside n), unary (inside n)⟩ { p with depth := p.depth + 1 } = .ok a q
      ∧ p' = { q with depth := q.depth - 1 } := by
  obtain ⟨level, q, hlevel, hpart, hp'⟩ := nested_eq_ok.mp h
  cases room with
  | zero => cases hlevel
  | succ n =>
      cases hlevel
      exact ⟨n, q, rfl, hpart, hp'⟩

/-- An expression or an operand one level further in leaves that level open when it fails. -/
theorem nested_errs {opening : Token} {part : Level → Parse Expr} {q : Parser} {us : List Token}
    (hpart : ∀ n, room = n + 1 →
      Fails next n (part ⟨assignment (inside n), unary (inside n)⟩))
    (hpass : p.Passes us q)
    (hfull : room = 0 → Fault q.current 0 0 rule us (.tooDeep opening.line))
    (hf : ∀ n k vs, room = n + 1 → Fault p'.current n k next vs error →
      Fault p'.current (n + 1) (k + 1) rule (us ++ vs) error)
    (h : nested (inside room) opening.line part q = .error error p') :
    ∃ k ts, Errs rule room p error p' k ts := by
  rcases nested_eq_error h with ⟨rfl, rfl, rfl⟩ | ⟨n, rfl, h₁⟩
  · exact ⟨0, us, Parser.errs_here hpass (hfull rfl) hpass.ending⟩
  · have hready : Parser.Ready { q with depth := q.depth + 1 } := Parser.ready_atDepth hpass.ready
    obtain ⟨k, vs, herrs⟩ := hpart n rfl _ _ _ hready h₁
    exact ⟨k + 1, us ++ ([] ++ vs), herrs.inside hpass (Parser.passes_refl hready)
      (hf n k vs rfl)⟩

/-! ## Loops -/

theorem growOver_fails {extend? : Expr → Parse (Option Expr)} (hx : Extends rule room extend?)
    (hf : ExtendFails rule room extend?) (bound : List Token) {q : Parser} {e : Expr}
    {ts : List Token} (hpass : p.Passes ts q) (he : Phrase rule room ts e)
    (h : growOver extend? bound e q = .error error p') :
    ∃ k us, Errs rule room p error p' k us := by
  induction bound generalizing q e ts with
  | nil => cases h
  | cons _ bound ih =>
    rcases Step.bind_eq_error.mp h with h₁ | ⟨o, q₁, h₁, h₂⟩
    · exact hf _ _ _ _ _ _ hpass he h₁
    · rcases hx _ _ _ _ hpass.ready h₁ with ⟨rfl, rfl⟩ | ⟨longer, us, rfl, _, hus, hlong⟩
      · cases h₂
      · exact ih (Parser.passes_trans hpass hus) (hlong ts he) h₂

/-- A rule that repeats fails in its first part, or later in its loop. -/
theorem grow_fails {extend? : Expr → Parse (Option Expr)} {first : Parse Expr}
    (ht : rule.tighter? = some next) (hr : rule ≠ .unary) (hread : Reads next room first)
    (hfirst : Fails next room first) (hx : Extends rule room extend?)
    (hf : ExtendFails rule room extend?) :
    Fails rule room (first >>= grow extend?) := by
  intro p p' error hp h
  rcases Step.bind_eq_error.mp h with h₁ | ⟨e, q, h₁, h₂⟩
  · obtain ⟨k, ts, herrs⟩ := hfirst _ _ _ hp h₁
    exact ⟨k, ts, herrs.after (Parser.passes_refl hp) (.tighter ht fun h => absurd h hr)⟩
  · obtain ⟨ts, hts, he⟩ := hread _ _ _ hp h₁
    exact growOver_fails hx hf _ hts (phrase_tighter ht he) h₂

theorem operation?_fails {operand : Parse Expr} (ht : rule.tighter? = some next)
    (ho : Fails next room operand) :
    ExtendFails rule room (operation? rule.operators rule.combine operand) := by
  intro p q p' e error ts hpass he h
  rcases Step.bind_eq_error.mp h with h₁ | ⟨o, q₁, h₁, h₂⟩
  · exact ⟨0, ts, Parser.errs_of_stuck hpass (accept?_stuck hpass.ready h₁) (.whole he)⟩
  · rcases accept?_passes hpass.ready (operators_not_end rule) h₁
      with ⟨rfl, rfl⟩ | ⟨operator, rfl, hk, hop⟩
    · cases h₂
    · obtain ⟨k, us, herrs⟩ := ho _ _ _ hop.ready (Step.bind_pure_eq_error.mp h₂)
      have hall := Parser.passes_trans hpass hop
      refine ⟨k, ts ++ [operator] ++ us, herrs.after hall fun hf => ?_⟩
      rw [List.append_assoc]
      exact .operand he hk ht hf

/-- One level of left-associative operators. That it fails so rests on what it has read before. -/
theorem leftAssociative_reads_fails {operand : Parse Expr} (ht : rule.tighter? = some next)
    (hr : rule ≠ .unary) (ho : Reads next room operand ∧ Fails next room operand) :
    Reads rule room (leftAssociative rule.operators rule.combine operand)
      ∧ Fails rule room (leftAssociative rule.operators rule.combine operand) := by
  obtain ⟨hread, hfails⟩ := ho
  refine ⟨leftAssociative_reads ht hread, ?_⟩
  exact grow_fails ht hr hread hfails (operation?_extends ht hread) (operation?_fails ht hfails)

/-! ## Arguments -/

/-- A list of arguments fails in one of them, with the arguments before it passed, or in front of
the one that would be one too many. -/
theorem argumentsUpTo_fails {n : Nat} {read : Parse Expr} (hread : Reads .assignment n read)
    (hf : Fails .assignment n read) (room : Nat) (hp : p.Ready)
    (h : argumentsUpTo read room p = .error error p') :
    (∃ us, Listed n room us ∧ p.Passes us p' ∧ error = .tooManyArguments p'.current.line)
      ∨ ∃ count us q k vs, Listed n count us ∧ count < room ∧ (count = 0 → q = p)
        ∧ p.Passes us q ∧ Errs .assignment n q error p' k vs := by
  induction room generalizing p with
  | zero =>
    cases h
    exact Or.inl ⟨[], .nil, Parser.passes_refl hp, rfl⟩
  | succ room ih =>
    have hrefl := Parser.passes_refl hp
    have hpos := Nat.succ_pos room
    rcases Step.bind_eq_error.mp h with h₁ | ⟨e, p₁, h₁, h₂⟩
    · obtain ⟨k, vs, herrs⟩ := hf _ _ _ hp h₁
      exact Or.inr ⟨0, [], p, k, vs, .nil, hpos, fun _ => rfl, hrefl, herrs⟩
    · obtain ⟨ts, hts, he⟩ := hread _ _ _ hp h₁
      rcases Step.bind_eq_error.mp h₂ with h₃ | ⟨o, p₂, h₃, h₄⟩
      · have herrs := Parser.errs_of_stuck hts (accept?_stuck hts.ready h₃) (.whole he)
        exact Or.inr ⟨0, [], p, 0, ts, .nil, hpos, fun _ => rfl, hrefl, herrs⟩
      · rcases accept?_passes hts.ready (by simp) h₃ with ⟨rfl, rfl⟩ | ⟨comma, rfl, hc, hcomma⟩
        · cases h₄
        · -- behind the comma the others fail, and this one is listed in front of them
          have hc := List.mem_singleton.mp hc
          have hpass := Parser.passes_trans hts hcomma
          rcases ih hcomma.ready (Step.bind_pure_eq_error.mp h₄) with
            ⟨us, hlisted, hus, rfl⟩ | ⟨count, us, q, k, vs, hlisted, hcount, _, hus, herrs⟩
          · have hall := Parser.passes_trans hpass hus
            rw [List.append_assoc] at hall
            exact Or.inl ⟨_, .cons he hc hlisted, hall, rfl⟩
          · have hall := Parser.passes_trans hpass hus
            rw [List.append_assoc] at hall
            exact Or.inr ⟨count + 1, _, q, k, vs, .cons he hc hlisted, Nat.succ_lt_succ hcount,
              nofun, hall, herrs⟩

/-! ## The rules -/

theorem primary_fails (hin : FailsInside room) : Fails .primary room (primary (inside room)) := by
  intro p p' error hp h
  have hrefl := Parser.passes_refl hp
  have hnothing : ∀ {e : Token → Expr},
      (advance >>= fun t => pure (e t) : Parse Expr) p = .error error p' →
        ∃ k ts, Errs .primary room p error p' k ts := by
    intro e h
    have hstuck := advance_stuck hp (Step.bind_pure_eq_error.mp h)
    exact ⟨0, [], Parser.errs_of_stuck hrefl hstuck .nothing⟩
  rcases Step.bind_eq_error.mp h with hg | ⟨_, _, hg, h⟩
  · cases hg
  cases hg
  cases hk : p.current.kind <;> rw [hk] at h
  case trueWord => exact hnothing h
  case falseWord => exact hnothing h
  case nilWord => exact hnothing h
  case number => exact hnothing h
  case string => exact hnothing h
  case identifier => exact hnothing h
  case leftParen =>
      rcases Step.bind_eq_error.mp h with h₁ | ⟨opening, p₁, h₁, h₂⟩
      · exact ⟨0, [], Parser.errs_of_stuck hrefl (advance_stuck hp h₁) .nothing⟩
      obtain ⟨rfl, hpass⟩ := advance_passes hp (by simp [hk]) h₁
      rcases Step.bind_eq_error.mp h₂ with h₃ | ⟨e, p₂, h₃, h₄⟩
      · -- in the grouping, which stays open
        exact nested_errs (fun n hn => (hin n hn).1) hpass
          (fun _ => .groupingTooDeep hk) (fun _ _ _ _ hf => .grouping hk hf) h₃
      · -- behind its expression, when it is not open any more
        obtain ⟨n, q, rfl, hpart, rfl⟩ := nested_inside_eq_ok h₃
        have hready := Parser.ready_atDepth (d := p₁.depth + 1) hpass.ready
        obtain ⟨ts, hts, he⟩ := assignment_reads (inside_reads n) _ _ _ hready hpart
        have hstop : q.Stops .assignment := expression_settles n _ _ _ hready hpart
        have hall := Parser.passes_trans hpass (Parser.passes_nested hts)
        exact ⟨0, _, expect_errs hall (.unclosedGrouping hk he)
          (fun hc => .unclosedGrouping hk he hstop hc) (Step.bind_pure_eq_error.mp h₄)⟩
  -- no expression starts with a token of another kind
  all_goals
    cases h
    have hstart : p.current.kind ∉ Rule.starts .primary := by rw [hk]; decide
    exact ⟨0, [], Parser.errs_here hrefl (.noExpression hstart) rfl⟩

/-- The arguments of a call fail with their level left open, behind those that are complete. -/
theorem nested_arguments_errs (hin : FailsInside room) {q : Parser} {callee : Expr}
    {cs : List Token} {opening : Token} (hpass : p.Passes (cs ++ [opening]) q)
    (he : Phrase .call room cs callee) (ho : opening.kind = .leftParen)
    (h : nested (inside room) q.current.line arguments q = .error error p') :
    ∃ k us, Errs .call room p error p' k us := by
  rcases nested_eq_error h with ⟨rfl, rfl, rfl⟩ | ⟨n, rfl, h₁⟩
  · exact ⟨0, cs ++ [opening], Parser.errs_here hpass (.argumentsTooDeep he ho) hpass.ending⟩
  have hready : Parser.Ready { q with depth := q.depth + 1 } := Parser.ready_atDepth hpass.ready
  have hread : Reads .assignment n (assignment (inside n)) := assignment_reads (inside_reads n)
  have h' : (if q.current.kind = .rightParen then pure []
      else argumentsUpTo (assignment (inside n)) maxArguments : Parse (List Expr))
        { q with depth := q.depth + 1 } = .error error p' := h₁
  split at h' <;> rename_i hk
  · cases h'
  rcases argumentsUpTo_fails hread (hin n rfl).1 _ hready h' with
    ⟨us, hlisted, hus, rfl⟩ | ⟨count, us, q', k, vs, hlisted, hcount, hfirst, hus, herrs⟩
  · -- in front of an argument too many, with the level of the arguments open
    have hdepth : p'.depth = q.depth + 1 := hus.depth
    have hending : p'.ahead.ending = q.ahead.ending := hus.ending
    refine ⟨1, cs ++ opening :: us, ?_, ?_, hus.ready, .extraArgument he ho hlisted, ?_⟩
    · rw [hpass.pending, List.append_assoc, List.append_assoc]
      exact congrArg (fun later => cs ++ ([opening] ++ later)) hus.pending
    · rw [hdepth, hpass.depth]
    · exact hending.trans hpass.ending
  · refine ⟨k + 1, cs ++ [opening] ++ (us ++ vs), herrs.inside hpass hus fun hf => ?_⟩
    -- the first argument does not start where the list would end
    have hstart : count = 0 → (vs.headD p'.current).kind ≠ .rightParen := by
      intro hc
      rw [herrs.first, hfirst hc]
      exact hk
    have hfault : Fault p'.current (n + 1) (k + 1) .call (cs ++ opening :: (us ++ vs)) error :=
      .argument he ho hlisted hcount hstart hf
    rwa [List.append_assoc]

theorem callOrGet?_fails (hin : FailsInside room) :
    ExtendFails .call room (callOrGet? (inside room)) := by
  intro p q p' e error cs hpass he h
  have hwhole : ∀ {q'}, q.Stuck error q' → ∃ k us, Errs .call room p error q' k us :=
    fun hstuck => ⟨0, cs, Parser.errs_of_stuck hpass hstuck (.whole he)⟩
  rcases Step.bind_eq_error.mp h with h₁ | ⟨paren, q₁, h₁, h₂⟩
  · exact hwhole (accept?_stuck hpass.ready h₁)
  rcases accept?_passes hpass.ready (by simp) h₁ with ⟨rfl, rfl⟩ | ⟨opening, rfl, ho, hopen⟩
  · rcases Step.bind_eq_error.mp h₂ with h₃ | ⟨point, q₂, h₃, h₄⟩
    · exact hwhole (accept?_stuck hpass.ready h₃)
    rcases accept?_passes hpass.ready (by simp) h₃ with ⟨rfl, rfl⟩ | ⟨dot, rfl, hd, hdot⟩
    · cases h₄
    · -- behind the point of a property
      have hd := List.mem_singleton.mp hd
      exact ⟨0, cs ++ [dot], expect_errs (Parser.passes_trans hpass hdot) (.property he hd)
        (.noName he hd) (Step.bind_pure_eq_error.mp h₄)⟩
  · -- in or behind the arguments of a call
    have ho := List.mem_singleton.mp ho
    have hall := Parser.passes_trans hpass hopen
    rcases Step.bind_eq_error.mp h₂ with hg | ⟨_, _, hg, h₃⟩
    · cases hg
    cases hg
    rcases Step.bind_eq_error.mp h₃ with h₄ | ⟨es, q₂, h₄, h₅⟩
    · exact nested_arguments_errs hin hall he ho h₄
    · obtain ⟨n, r, rfl, hpart, rfl⟩ := nested_inside_eq_ok h₄
      have hready := Parser.ready_atDepth (d := q₁.depth + 1) hopen.ready
      have hread : Reads .assignment n (assignment (inside n)) := assignment_reads (inside_reads n)
      obtain ⟨us, arguments, hus, ha, rfl, hlen⟩ := arguments_reads hread hready hpart
      rw [List.length_map] at hlen
      have hlast := Parser.passes_trans hpass
        (Parser.passes_trans hopen (Parser.passes_nested hus))
      refine ⟨0, _, expect_errs hlast (.unclosedArguments he ho ha hlen) (fun hc => ?_)
        (Step.bind_pure_eq_error.mp h₅)⟩
      rcases arguments_settles hread (expression_settles n) hready hpart with
        hclosed | ⟨hne, hstop, hcomma⟩
      · exact absurd hclosed hc
      · have hne : arguments ≠ [] := fun hnil => hne (by rw [hnil]; rfl)
        exact .unclosedArguments he ho ha hne hlen hstop hcomma hc

theorem call_fails (hin : FailsInside room) : Fails .call room (call (inside room)) :=
  grow_fails rfl nofun (primary_reads (inside_reads room)) (primary_fails hin)
    (callOrGet?_extends (inside_reads room)) (callOrGet?_fails hin)

theorem unary_fails (hin : FailsInside room) : Fails .unary room (unary (inside room)) := by
  intro p p' error hp h
  have hrefl := Parser.passes_refl hp
  rcases Step.bind_eq_error.mp h with h₁ | ⟨o, p₁, h₁, h₂⟩
  · exact ⟨0, [], Parser.errs_of_stuck hrefl (accept?_stuck hp h₁) .nothing⟩
  rcases accept?_eq_ok.mp h₁ with ⟨hk, rfl, rfl⟩ | ⟨hk, operator, rfl, ha⟩
  · obtain ⟨k, ts, herrs⟩ := call_fails hin _ _ _ hp h₂
    refine ⟨k, ts, herrs.after hrefl (.tighter rfl fun _ => ?_)⟩
    rw [herrs.first]
    exact hk
  · have hend : p.current.kind ≠ .endOfText := fun he => absurd (he ▸ hk) (by decide)
    obtain ⟨rfl, hpass⟩ := advance_passes hp hend ha
    exact nested_errs (fun n hn => (hin n hn).2) hpass
      (fun _ => .signTooDeep hk) (fun _ _ _ _ hf => .sign hk hf)
      (Step.bind_pure_eq_error.mp h₂)

theorem disjunction_fails (hin : FailsInside room) :
    Fails .disjunction room (disjunction (inside room)) := by
  have hunary : Reads .unary room (unary (inside room)) ∧ Fails .unary room (unary (inside room)) :=
    ⟨unary_reads (inside_reads room), unary_fails hin⟩
  have hfactor : Reads .factor room (factor (inside room))
      ∧ Fails .factor room (factor (inside room)) := leftAssociative_reads_fails rfl nofun hunary
  have hterm : Reads .term room (term (inside room)) ∧ Fails .term room (term (inside room)) :=
    leftAssociative_reads_fails rfl nofun hfactor
  have hcomparison : Reads .comparison room (comparison (inside room))
      ∧ Fails .comparison room (comparison (inside room)) :=
    leftAssociative_reads_fails rfl nofun hterm
  have hequality : Reads .equality room (equality (inside room))
      ∧ Fails .equality room (equality (inside room)) :=
    leftAssociative_reads_fails rfl nofun hcomparison
  have hconjunction : Reads .conjunction room (conjunction (inside room))
      ∧ Fails .conjunction room (conjunction (inside room)) :=
    leftAssociative_reads_fails rfl nofun hequality
  have hdisjunction : Reads .disjunction room (disjunction (inside room))
      ∧ Fails .disjunction room (disjunction (inside room)) :=
    leftAssociative_reads_fails rfl nofun hconjunction
  exact hdisjunction.2

theorem assignment_fails (hin : FailsInside room) :
    Fails .assignment room (assignment (inside room)) := by
  intro p p' error hp h
  rcases Step.bind_eq_error.mp h with h₁ | ⟨left, p₁, h₁, h₂⟩
  · obtain ⟨k, ts, herrs⟩ := disjunction_fails hin _ _ _ hp h₁
    exact ⟨k, ts, herrs.after (Parser.passes_refl hp) (.tighter rfl nofun)⟩
  obtain ⟨ts, hts, hleft⟩ := disjunction_reads (inside_reads room) _ _ _ hp h₁
  rcases Step.bind_eq_error.mp h₂ with h₃ | ⟨o, p₂, h₃, h₄⟩
  · have hbegun : Begun room 0 .assignment ts := .whole (phrase_tighter rfl hleft)
    exact ⟨0, ts, Parser.errs_of_stuck hts (accept?_stuck hts.ready h₃) hbegun⟩
  rcases accept?_passes hts.ready (by simp) h₃ with ⟨rfl, rfl⟩ | ⟨equals, rfl, hk, hequals⟩
  · cases h₄
  have hk := List.mem_singleton.mp hk
  have hpass := Parser.passes_trans hts hequals
  rcases Step.bind_eq_error.mp h₄ with h₅ | ⟨value, p₃, h₅, h₆⟩
  · -- in the value, whose level stays open
    refine nested_errs (fun n hn => (hin n hn).1) hpass (fun hn => ?_)
      (fun n k vs hn hf => ?_) h₅
    · subst hn
      exact .valueTooDeep hleft hk
    · subst hn
      rw [List.append_assoc]
      exact .value hleft hk hf
  · -- behind the value, where the left side turns out to be no target
    obtain ⟨n, q, rfl, hpart, rfl⟩ := nested_inside_eq_ok h₅
    have hready := Parser.ready_atDepth (d := p₂.depth + 1) hequals.ready
    obtain ⟨us, hus, hvalue⟩ := assignment_reads (inside_reads n) _ _ _ hready hpart
    have hstop : q.Stops .assignment := expression_settles n _ _ _ hready hpart
    have hall := Parser.passes_trans hts
      (Parser.passes_trans hequals (Parser.passes_nested hus))
    split at h₆
    · cases h₆
    · cases h₆
    · rename_i hvar hget
      cases h₆
      have htarget : left.isTarget = false := by
        cases left with
        | var name => exact absurd rfl (hvar name)
        | get object name => exact absurd rfl (hget object name)
        | _ => rfl
      exact ⟨0, _, Parser.errs_here hall (.noTarget hleft htarget hk hvalue hstop) hall.ending⟩

/-! ## All levels -/

theorem inside_fails (room : Nat) : FailsInside room := by
  induction room with
  | zero => intro n hn; cases hn
  | succ room ih =>
    intro n hn
    cases hn
    exact ⟨assignment_fails ih, unary_fails ih⟩

theorem expression_fails (hp : p.Ready) (h : expression p = .error error p') :
    ∃ k ts, Errs .assignment (maxNesting - p.depth) p error p' k ts :=
  assignment_fails (inside_fails _) _ _ _ hp h

/-- A whole text is no expression, or something is left behind it. -/
theorem whole_fails (hp : p.Ready) (h : whole p = .error error p') :
    (∃ k ts, Errs .assignment (maxNesting - p.depth) p error p' k ts)
      ∨ ∃ ts e, p.Passes ts p' ∧ Phrase .assignment (maxNesting - p.depth) ts e
        ∧ p'.Stops .assignment ∧ p'.current.kind ≠ .endOfText
        ∧ error = .unexpectedToken .endOfExpression p'.current := by
  rcases Step.bind_eq_error.mp h with h₁ | ⟨e, p₁, h₁, h₂⟩
  · exact Or.inl (expression_fails hp h₁)
  · obtain ⟨ts, hts, he⟩ := expression_reads hp h₁
    rcases expect_stuck hts.ready (Step.bind_pure_eq_error.mp h₂) with hstuck | ⟨hk, rfl, rfl⟩
    · exact Or.inl ⟨0, ts, Parser.errs_of_stuck hts hstuck (.whole he)⟩
    · exact Or.inr ⟨ts, e, hts, he, expression_settles _ _ _ _ hp h₁, hk, rfl⟩

end Parse

/-! ## Requests to one parser -/

namespace Request

variable {p p' : Parser} {e : Expr} {error : SyntaxError} {request : Request}

/-- A request that fails has begun a phrase, and leaves its levels open. -/
theorem parse_fails (hp : p.Ready) (h : request.parse p = .error error p') :
    ∃ k ts, Halts .assignment (maxNesting - p.depth) p error p' k ts := by
  cases request with
  | expression =>
      obtain ⟨k, ts, herrs⟩ := Parse.expression_fails hp h
      exact ⟨k, ts, herrs.halts⟩
  | whole =>
      rcases Parse.whole_fails hp h with ⟨k, ts, herrs⟩ | ⟨ts, e, hts, he, _, hk, rfl⟩
      · exact ⟨k, ts, herrs.halts⟩
      · exact ⟨0, ts, hts.pending, hts.depth, hts.ready, .whole he, nofun,
          .unexpectedToken hts.ending hk⟩

/-- A request that succeeds leaves as many levels open as it found. -/
theorem parse_succeeds (hp : p.Ready) (h : request.parse p = .ok e p') :
    p'.Ready ∧ p'.depth = p.depth := by
  cases request with
  | expression =>
      obtain ⟨ts, hts, _⟩ := Parse.expression_reads hp h
      exact ⟨hts.ready, hts.depth⟩
  | whole =>
      obtain ⟨e, p₁, h₁, h₂⟩ := Step.bind_eq_ok.mp h
      obtain ⟨ts, hts, _⟩ := Parse.expression_reads hp h₁
      obtain ⟨last, p₂, h₃, h₄⟩ := Step.bind_eq_ok.mp h₂
      obtain ⟨rfl, rfl⟩ := Step.pure_eq_ok.mp h₄
      -- a step at the end of the text leads to that end again
      obtain ⟨hend, hadvance⟩ := Parse.expect_eq_ok.mp h₃
      obtain ⟨line, hcurrent, hahead⟩ := hts.ready.at_end hend
      have hsame : Parse.advance p₁ = .ok p₁.current p₁ := by
        obtain ⟨current, ahead, depth⟩ := p₁
        cases hcurrent
        cases hahead
        rfl
      rw [hsame] at hadvance
      cases hadvance
      exact ⟨hts.ready, hts.depth⟩

end Request

namespace Parser

variable {p : Parser}

/-- A parser of a text that can be asked. -/
structure Waiting (p : Parser) : Prop where
  ready : p.Ready
  depth_le : p.depth ≤ maxNesting

theorem waiting_start {text : String} (h : start text = .ok p) : p.Waiting := by
  obtain ⟨-, -, hdepth, hready⟩ := start_eq_ok h
  refine ⟨hready, ?_⟩
  rw [hdepth]
  exact Nat.zero_le _

/-- **A request leaves a parser that can be asked again**, whether or not it fails. -/
theorem Waiting.ask (h : p.Waiting) (request : Request) : (p.ask request).2.Waiting := by
  cases hask : request.parse p with
  | ok e p' =>
      obtain ⟨hready, hdepth⟩ := Request.parse_succeeds h.ready hask
      rw [ask_eq_ok.mpr hask]
      exact ⟨hready, Nat.le_trans (Nat.le_of_eq hdepth) h.depth_le⟩
  | error error p' =>
      obtain ⟨k, ts, hhalts⟩ := Request.parse_fails h.ready hask
      have hk : k + error.unopened ≤ maxNesting - p.depth + error.unopened := hhalts.begun.le
      have hdepth := hhalts.depth
      have hle := h.depth_le
      rw [ask_eq_error.mpr hask]
      refine ⟨hhalts.ready, ?_⟩
      show p'.depth ≤ maxNesting
      omega

/-- And so do any number of requests, by induction on them. -/
theorem Waiting.askAll (h : p.Waiting) (requests : List Request) :
    (p.askAll requests).2.Waiting := by
  induction requests generalizing p with
  | nil => exact h
  | cons request later ih => exact ih (h.ask request)

end Parser

/--
**A failure leaves open what is open where it is found.**

Whatever a parser of a text has been asked, at most as many levels are open as there may be. A
further request that succeeds leaves as many open as it found. One that fails adds the `k` levels
that are open in the phrase it was reading, behind the last token `ts` it passed; so it leaves the
depth as it found it only if it fails outside of every grouping, argument list, operand of a sign
and assigned value. A level is found to be one too many when all that were not open before are open
in that phrase, which begins a further one: from no open level it takes the 49th.
-/
theorem failure_leaves_levels_open {text : String} {p : Parser} (h : Parser.start text = .ok p)
    (requests : List Request) (request : Request) :
    let q := (p.askAll requests).2
    q.depth ≤ maxNesting
      ∧ (∀ e q', q.ask request = (.ok e, q') → q'.depth = q.depth)
      ∧ ∀ error q', q.ask request = (.error error, q') →
        ∃ k ts, q.pending = ts ++ q'.pending ∧ q'.depth = q.depth + k
          ∧ Begun (maxNesting - q.depth + error.unopened) (k + error.unopened) .assignment ts
          ∧ ∀ line, error = .tooDeep line → k = maxNesting - q.depth := by
  intro q
  have hq : q.Waiting := (Parser.waiting_start h).askAll requests
  refine ⟨hq.depth_le, ?_, ?_⟩
  · intro e q' hask
    obtain ⟨-, hdepth⟩ := Request.parse_succeeds hq.ready (Parser.ask_eq_ok.mp hask)
    exact hdepth
  · intro error q' hask
    obtain ⟨k, ts, hhalts⟩ := Request.parse_fails hq.ready (Parser.ask_eq_error.mp hask)
    refine ⟨k, ts, hhalts.pending, hhalts.depth, hhalts.begun, fun line herror => hhalts.full ?_⟩
    rw [herror]
    rfl

/-- Two failures in turn. The first one is in a grouping, and the second one in a grouping behind a
sign. -/
theorem failure_leaves_levels_open_twice :
    let name (lexeme : String) : Token := ⟨.identifier, lexeme, none, 1⟩
    let opening : Token := ⟨.leftParen, "(", none, 1⟩
    let dot : Token := ⟨.dot, ".", none, 1⟩
    let minus : Token := ⟨.minus, "-", none, 1⟩
    let p := Parser.mk opening ⟨[name "a", dot, minus, opening, name "b", dot], .finished 1⟩ 0
    let q := (p.askAll [.expression]).2
    let error := SyntaxError.unexpectedToken .propertyName (Token.atEnd 1)
    let q' := Parser.mk (Token.atEnd 1) ⟨[], .finished 1⟩ 3
    Parser.start "(a.-(b." = .ok p ∧ q.depth = 1 ∧ q.ask .expression = (.error error, q')
      ∧ ∃ k ts, q.pending = ts ++ q'.pending ∧ q'.depth = q.depth + k
        ∧ Begun (maxNesting - q.depth + error.unopened) (k + error.unopened) .assignment ts
        ∧ ∀ line, error = .tooDeep line → k = maxNesting - q.depth := by
  intro name opening dot minus p q error q'
  have hscan : Scan.ofText "(a.-(b."
      = ⟨[opening, name "a", dot, minus, opening, name "b", dot], .finished 1⟩ := rfl
  have hstart : Parser.start "(a.-(b." = .ok p := by
    unfold Parser.start
    rw [hscan]
    rfl
  have hask : q.ask .expression = (.error error, q') := rfl
  obtain ⟨-, -, hfails⟩ := failure_leaves_levels_open hstart [.expression] .expression
  exact ⟨hstart, rfl, hask, hfails error q' hask⟩

set_option maxRecDepth 10000 in
/-- As many signs as there may be levels, in front of a property without a name. The levels of the
signs stay open, and the next request fails where it opens its first. From the depth that the failed
request started at, it would give an expression. -/
theorem failure_takes_levels_from_next_request :
    let bang : Token := ⟨.bang, "!", none, 1⟩
    let name (lexeme : String) : Token := ⟨.identifier, lexeme, none, 1⟩
    ∃ p q q', Parser.start "!!!!!!!!!!!!!!!!!!!!!!!!!!!!!!!!!!!!!!!!!!!!!!!!a.!b" = .ok p
      ∧ p.ask .expression = (.error (.unexpectedToken .propertyName bang), q)
      ∧ p.depth = 0 ∧ q.depth = maxNesting ∧ q.pending = [bang, name "b"]
      ∧ q.ask .expression = (.error (.tooDeep 1), q')
      ∧ (Parser.ask { q with depth := p.depth } .expression).1
        = .ok (.unary bang (.var (name "b"))) := by
  intro bang name
  have hscan : Scan.ofText "!!!!!!!!!!!!!!!!!!!!!!!!!!!!!!!!!!!!!!!!!!!!!!!!a.!b"
      = ⟨List.replicate maxNesting bang
          ++ [name "a", ⟨.dot, ".", none, 1⟩, bang, name "b"], .finished 1⟩ := rfl
  let p : Parser := ⟨bang, ⟨List.replicate 47 bang
    ++ [name "a", ⟨.dot, ".", none, 1⟩, bang, name "b"], .finished 1⟩, 0⟩
  let q : Parser := ⟨bang, ⟨[name "b"], .finished 1⟩, maxNesting⟩
  let q' : Parser := ⟨name "b", ⟨[], .finished 1⟩, maxNesting⟩
  refine ⟨p, q, q', ?_, ?_, rfl, rfl, rfl, ?_, ?_⟩
  · unfold Parser.start
    rw [hscan]
    rfl
  · rfl
  · rfl
  · rfl

end Lox

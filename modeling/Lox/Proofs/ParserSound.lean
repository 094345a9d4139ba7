import Lox.Proofs.ParserSteps

/-!
# What a parser accepts is derived by the grammar

Each rule of the parser is shown to pass a phrase of its rule of the grammar, from the tightest
rule to the loosest. The rules of one level rely on the level inside, so all of them together are
an induction on the number of levels that may still be opened.

A loop is the one place where the argument is not read off the code. It keeps the invariant that
the tokens passed so far are the expression grown so far; that a phrase of a rule may stand to the
left of an operator of the same rule is what makes an extension keep it.
-/

namespace Lox

/-- The tokens `ts` are the expression `e` by a rule, with at most `room` levels. -/
structure Phrase (rule : Rule) (room : Nat) (ts : List Token) (e : Expr) : Prop where
  derives : Derives rule ts e
  fits : e.Fits room

/-- A parser that passes a phrase of a rule when it succeeds. -/
def Reads (rule : Rule) (room : Nat) (read : Parse Expr) : Prop :=
  ∀ (p p' : Parser) (e : Expr), p.Ready → read p = .ok e p' →
    ∃ ts, p.Passes ts p' ∧ Phrase rule room ts e

/-- A step of a loop that makes a longer phrase out of a phrase, or else passes nothing. -/
def Extends (rule : Rule) (room : Nat) (extend? : Expr → Parse (Option Expr)) : Prop :=
  ∀ (p p' : Parser) (e : Expr) (o : Option Expr), p.Ready → extend? e p = .ok o p' →
    (o = none ∧ p' = p)
      ∨ ∃ longer us, o = some longer ∧ us ≠ [] ∧ p.Passes us p'
        ∧ ∀ ts, Phrase rule room ts e → Phrase rule room (ts ++ us) longer

/-- A level that reads an expression and an operand, if there is one. -/
def ReadsInside (room : Nat) (inner : Option Parse.Level) : Prop :=
  ∀ level, inner = some level →
    ∃ n, room = n + 1 ∧ Reads .assignment n level.expression ∧ Reads .unary n level.operand

namespace Parse

variable {rule next : Rule} {room : Nat} {inner : Option Level}

theorem phrase_tighter {ts : List Token} {e : Expr} (h : rule.tighter? = some next)
    (hp : Phrase next room ts e) : Phrase rule room ts e := ⟨.tighter h hp.derives, hp.fits⟩

/-! ## Loops -/

theorem growOver_extends {extend? : Expr → Parse (Option Expr)} (hx : Extends rule room extend?)
    (bound : List Token) {p p' : Parser} {e e' : Expr} {ts : List Token} (hp : p.Ready)
    (he : Phrase rule room ts e) (h : growOver extend? bound e p = .ok e' p') :
    ∃ us, p.Passes us p' ∧ Phrase rule room (ts ++ us) e' := by
  induction bound generalizing p e ts with
  | nil =>
    obtain ⟨rfl, rfl⟩ := Step.pure_eq_ok.mp h
    exact ⟨[], Parser.passes_refl hp, by rwa [List.append_nil]⟩
  | cons _ bound ih =>
    obtain ⟨o, p₁, h₁, h₂⟩ := Step.bind_eq_ok.mp h
    rcases hx _ _ _ _ hp h₁ with ⟨rfl, rfl⟩ | ⟨longer, us, rfl, _, hus, hlong⟩
    · obtain ⟨rfl, rfl⟩ := Step.pure_eq_ok.mp h₂
      exact ⟨[], Parser.passes_refl hp, by rwa [List.append_nil]⟩
    -- one extension, and then the rest of the loop from the longer phrase
    · obtain ⟨vs, hvs, he'⟩ := ih hus.ready (hlong ts he) h₂
      exact ⟨us ++ vs, Parser.passes_trans hus hvs, by rwa [← List.append_assoc]⟩

/-- A phrase of the tighter rule, extended as often as possible, is a phrase of the rule. -/
theorem grow_reads {extend? : Expr → Parse (Option Expr)} {first : Parse Expr}
    (ht : rule.tighter? = some next) (hf : Reads next room first)
    (hx : Extends rule room extend?) : Reads rule room (first >>= grow extend?) := by
  intro p p' e hp h
  obtain ⟨e₁, p₁, h₁, h₂⟩ := Step.bind_eq_ok.mp h
  obtain ⟨ts, hts, he₁⟩ := hf _ _ _ hp h₁
  obtain ⟨us, hus, he⟩ := growOver_extends hx _ hts.ready (phrase_tighter ht he₁) h₂
  exact ⟨ts ++ us, Parser.passes_trans hts hus, he⟩

theorem operators_not_end (rule : Rule) : TokenKind.endOfText ∉ rule.operators := by
  cases rule <;> simp [Rule.operators]

theorem operation?_extends {operand : Parse Expr} (ht : rule.tighter? = some next)
    (ho : Reads next room operand) :
    Extends rule room (operation? rule.operators rule.combine operand) := by
  intro p p' left o hp h
  obtain ⟨a, p₁, h₁, h₂⟩ := Step.bind_eq_ok.mp h
  rcases accept?_passes hp (operators_not_end rule) h₁ with ⟨rfl, rfl⟩ | ⟨t, rfl, hk, hpass⟩
  · obtain ⟨rfl, rfl⟩ := Step.pure_eq_ok.mp h₂
    exact Or.inl ⟨rfl, rfl⟩
  · obtain ⟨right, p₂, h₃, h₄⟩ := Step.bind_eq_ok.mp h₂
    obtain ⟨rfl, rfl⟩ := Step.pure_eq_ok.mp h₄
    obtain ⟨us, hus, hr⟩ := ho _ _ _ hpass.ready h₃
    refine Or.inr ⟨_, t :: us, rfl, by simp, Parser.passes_trans hpass hus, fun ts hl => ?_⟩
    exact ⟨.operation hl.derives hk ht hr.derives, Expr.fits_combine.mpr ⟨hl.fits, hr.fits⟩⟩

/-- **One level of left-associative operators.** -/
theorem leftAssociative_reads {operand : Parse Expr} (ht : rule.tighter? = some next)
    (ho : Reads next room operand) :
    Reads rule room (leftAssociative rule.operators rule.combine operand) :=
  grow_reads ht ho (operation?_extends ht ho)

/-! ## Parts one level further in -/

/-- A part that lies one level further in is read by that level, and what it passes is passed. -/
theorem nested_reads {α : Type} {line : Nat} {part : Level → Parse α} {p p' : Parser} {a : α}
    (hin : ReadsInside room inner) (hp : p.Ready) (h : nested inner line part p = .ok a p') :
    ∃ n level q q', room = n + 1 ∧ Reads .assignment n level.expression
      ∧ Reads .unary n level.operand ∧ q.Ready ∧ part level q = .ok a q'
      ∧ ∀ ts, q.Passes ts q' → p.Passes ts p' := by
  obtain ⟨level, p₁, hl, h₁, rfl⟩ := nested_eq_ok.mp h
  obtain ⟨n, hn, he, ho⟩ := hin level hl
  exact ⟨n, level, _, p₁, hn, he, ho, Parser.ready_atDepth hp, h₁,
    fun ts hts => Parser.passes_nested hts⟩

/-! ## Arguments -/

/-- The tokens `ts` are expressions with commas between them, at most `room` levels each. -/
structure PhraseList (room : Nat) (ts : List Token) (arguments : List (List Token × Expr)) :
    Prop where
  separated : Separated (arguments.map Prod.fst) ts
  phrases : ∀ a ∈ arguments, Phrase .assignment room a.1 a.2

theorem phraseList_nil : PhraseList room [] [] := ⟨.none, by simp⟩

theorem phraseList_one {ts : List Token} {e : Expr} (h : Phrase .assignment room ts e) :
    PhraseList room ts [(ts, e)] := ⟨.one, by simpa using h⟩

theorem phraseList_cons {ts us : List Token} {e : Expr} {comma : Token}
    {arguments : List (List Token × Expr)} (h : Phrase .assignment room ts e)
    (hc : comma.kind = .comma) (ha : PhraseList room us arguments) (hne : arguments ≠ []) :
    PhraseList room (ts ++ comma :: us) ((ts, e) :: arguments) := by
  cases arguments with
  | nil => exact absurd rfl hne
  | cons a arguments =>
      refine ⟨.more hc ha.separated, fun b hb => ?_⟩
      rcases List.mem_cons.mp hb with rfl | hb
      · exact h
      · exact ha.phrases b hb

/-- One argument or more, in no greater number than there is room for. -/
theorem argumentsUpTo_reads {n : Nat} {read : Parse Expr} (hr : Reads .assignment n read)
    (count : Nat) {p p' : Parser} {es : List Expr} (hp : p.Ready)
    (h : argumentsUpTo read count p = .ok es p') :
    ∃ ts arguments, p.Passes ts p' ∧ PhraseList n ts arguments
      ∧ es = arguments.map Prod.snd ∧ es ≠ [] ∧ es.length ≤ count := by
  induction count generalizing p es with
  | zero => cases h
  | succ count ih =>
    obtain ⟨e, p₁, h₁, h₂⟩ := Step.bind_eq_ok.mp h
    obtain ⟨ts, hts, he⟩ := hr _ _ _ hp h₁
    obtain ⟨o, p₂, h₃, h₄⟩ := Step.bind_eq_ok.mp h₂
    rcases accept?_passes hts.ready (by simp) h₃ with ⟨rfl, rfl⟩ | ⟨comma, rfl, hc, hpass⟩
    · obtain ⟨rfl, rfl⟩ := Step.pure_eq_ok.mp h₄
      exact ⟨ts, [(ts, e)], hts, phraseList_one he, rfl, by simp, by simp⟩
    · obtain ⟨rest, p₃, h₅, h₆⟩ := Step.bind_eq_ok.mp h₄
      obtain ⟨rfl, rfl⟩ := Step.pure_eq_ok.mp h₆
      obtain ⟨us, arguments, hus, ha, rfl, hne, hlen⟩ := ih hpass.ready h₅
      refine ⟨ts ++ comma :: us, (ts, e) :: arguments, ?_, ?_, rfl, by simp, ?_⟩
      · exact Parser.passes_trans hts (Parser.passes_trans hpass hus)
      · exact phraseList_cons he (List.mem_singleton.mp hc) ha (fun hn => hne (by rw [hn]; rfl))
      · rw [List.length_cons]; omega

theorem arguments_reads {n : Nat} {level : Level} (hr : Reads .assignment n level.expression)
    {p p' : Parser} {es : List Expr} (hp : p.Ready) (h : arguments level p = .ok es p') :
    ∃ ts arguments, p.Passes ts p' ∧ PhraseList n ts arguments
      ∧ es = arguments.map Prod.snd ∧ es.length ≤ maxArguments := by
  have h' : (if p.current.kind = .rightParen then pure []
      else argumentsUpTo level.expression maxArguments : Parse (List Expr)) p = .ok es p' := h
  split at h'
  · obtain ⟨rfl, rfl⟩ := Step.pure_eq_ok.mp h'
    exact ⟨[], [], Parser.passes_refl hp, phraseList_nil, rfl, by simp⟩
  · obtain ⟨ts, arguments, hts, ha, hes, _, hlen⟩ := argumentsUpTo_reads hr _ hp h'
    exact ⟨ts, arguments, hts, ha, hes, hlen⟩

/-! ## The rules -/

theorem literal_reads {p p' : Parser} {e : Expr} (hp : p.Ready)
    (hk : p.current.kind ∈ TokenKind.literals)
    (h : (advance >>= fun t => pure (.literal (t.literal.getD .nil)) : Parse Expr) p = .ok e p') :
    ∃ ts, p.Passes ts p' ∧ Phrase .primary room ts e := by
  have hend : p.current.kind ≠ .endOfText := by
    intro he
    simp [he, TokenKind.literals] at hk
  obtain ⟨t, p₁, h₁, h₂⟩ := Step.bind_eq_ok.mp h
  obtain ⟨rfl, rfl⟩ := Step.pure_eq_ok.mp h₂
  obtain ⟨rfl, hpass⟩ := advance_passes hp hend h₁
  -- a token of a text that stands for a value carries it, so the fallback is not used
  have hl : p.current.Lexed := hp.lexed _ (by rw [hpass.pending]; simp)
  obtain ⟨v, hv⟩ := hl.literal hk
  refine ⟨_, hpass, ?_, Expr.fits_literal⟩
  rw [hv]
  exact .literal hk hv

theorem primary_reads (hin : ReadsInside room inner) : Reads .primary room (primary inner) := by
  intro p p' e hp h
  obtain ⟨_, _, hg, h⟩ := Step.bind_eq_ok.mp h
  cases hg
  cases hk : p.current.kind <;> rw [hk] at h
  case trueWord => exact literal_reads hp (by simp [hk, TokenKind.literals]) h
  case falseWord => exact literal_reads hp (by simp [hk, TokenKind.literals]) h
  case nilWord => exact literal_reads hp (by simp [hk, TokenKind.literals]) h
  case number => exact literal_reads hp (by simp [hk, TokenKind.literals]) h
  case string => exact literal_reads hp (by simp [hk, TokenKind.literals]) h
  case identifier =>
      obtain ⟨t, p₁, h₁, h₂⟩ := Step.bind_eq_ok.mp h
      obtain ⟨rfl, rfl⟩ := Step.pure_eq_ok.mp h₂
      obtain ⟨rfl, hpass⟩ := advance_passes hp (by simp [hk]) h₁
      exact ⟨_, hpass, .var hk, Expr.fits_var⟩
  case leftParen =>
      obtain ⟨opening, p₁, h₁, h₂⟩ := Step.bind_eq_ok.mp h
      obtain ⟨rfl, hpass⟩ := advance_passes hp (by simp [hk]) h₁
      obtain ⟨e, p₂, h₃, h₄⟩ := Step.bind_eq_ok.mp h₂
      obtain ⟨n, level, q, q', rfl, hr, -, hq, hpart, hnest⟩ := nested_reads hin hpass.ready h₃
      obtain ⟨ts, hts, he⟩ := hr _ _ _ hq hpart
      obtain ⟨closing, p₃, h₅, h₆⟩ := Step.bind_eq_ok.mp h₄
      obtain ⟨rfl, rfl⟩ := Step.pure_eq_ok.mp h₆
      obtain ⟨hc, hclose⟩ := expect_passes (hnest ts hts).ready (by simp [Expectation.kind]) h₅
      refine ⟨_, Parser.passes_trans hpass (Parser.passes_trans (hnest ts hts) hclose), ?_, ?_⟩
      · exact .grouping hk he.derives hc
      · exact Expr.fits_grouping.mpr he.fits
  -- no expression starts with a token of another kind
  all_goals cases h

theorem callOrGet?_extends (hin : ReadsInside room inner) :
    Extends .call room (callOrGet? inner) := by
  intro p p' e o hp h
  obtain ⟨paren, p₁, h₁, h₂⟩ := Step.bind_eq_ok.mp h
  rcases accept?_passes hp (by simp) h₁ with ⟨rfl, rfl⟩ | ⟨opening, rfl, ho, hpass⟩
  · obtain ⟨point, p₂, h₃, h₄⟩ := Step.bind_eq_ok.mp h₂
    rcases accept?_passes hp (by simp) h₃ with ⟨rfl, rfl⟩ | ⟨dot, rfl, hd, hpass⟩
    · obtain ⟨rfl, rfl⟩ := Step.pure_eq_ok.mp h₄
      exact Or.inl ⟨rfl, rfl⟩
    · -- a property
      obtain ⟨name, p₃, h₅, h₆⟩ := Step.bind_eq_ok.mp h₄
      obtain ⟨rfl, rfl⟩ := Step.pure_eq_ok.mp h₆
      obtain ⟨hn, hname⟩ := expect_passes hpass.ready (by simp [Expectation.kind]) h₅
      refine Or.inr ⟨_, [dot, name], rfl, by simp, Parser.passes_trans hpass hname,
        fun ts he => ?_⟩
      exact ⟨.get he.derives (List.mem_singleton.mp hd) hn, Expr.fits_get.mpr he.fits⟩
  · -- a call
    obtain ⟨_, _, hg, h₃⟩ := Step.bind_eq_ok.mp h₂
    cases hg
    obtain ⟨es, p₂, h₄, h₅⟩ := Step.bind_eq_ok.mp h₃
    obtain ⟨n, level, q, q', rfl, hr, -, hq, hpart, hnest⟩ := nested_reads hin hpass.ready h₄
    obtain ⟨us, arguments, hus, ha, rfl, hlen⟩ := arguments_reads hr hq hpart
    obtain ⟨closing, p₃, h₆, h₇⟩ := Step.bind_eq_ok.mp h₅
    obtain ⟨rfl, rfl⟩ := Step.pure_eq_ok.mp h₇
    obtain ⟨hc, hclose⟩ := expect_passes (hnest us hus).ready (by simp [Expectation.kind]) h₆
    refine Or.inr ⟨_, opening :: (us ++ [closing]), rfl, by simp,
      Parser.passes_trans hpass (Parser.passes_trans (hnest us hus) hclose), fun ts he => ?_⟩
    refine ⟨.call he.derives (List.mem_singleton.mp ho) (fun a hm => (ha.phrases a hm).derives)
      ha.separated hc, Expr.fits_call.mpr ⟨he.fits, hlen, ?_⟩⟩
    intro b hb
    obtain ⟨a, hm, rfl⟩ := List.mem_map.mp hb
    exact (ha.phrases a hm).fits

theorem call_reads (hin : ReadsInside room inner) : Reads .call room (call inner) :=
  grow_reads rfl (primary_reads hin) (callOrGet?_extends hin)

theorem unary_reads (hin : ReadsInside room inner) : Reads .unary room (unary inner) := by
  intro p p' e hp h
  obtain ⟨o, p₁, h₁, h₂⟩ := Step.bind_eq_ok.mp h
  rcases accept?_passes hp (by simp) h₁ with ⟨rfl, rfl⟩ | ⟨operator, rfl, hk, hpass⟩
  · obtain ⟨ts, hts, he⟩ := call_reads hin _ _ _ hp h₂
    exact ⟨ts, hts, phrase_tighter rfl he⟩
  · obtain ⟨right, p₂, h₃, h₄⟩ := Step.bind_eq_ok.mp h₂
    obtain ⟨rfl, rfl⟩ := Step.pure_eq_ok.mp h₄
    obtain ⟨n, level, q, q', rfl, -, hr, hq, hpart, hnest⟩ := nested_reads hin hpass.ready h₃
    obtain ⟨ts, hts, he⟩ := hr _ _ _ hq hpart
    refine ⟨_, Parser.passes_trans hpass (hnest ts hts), .unary hk he.derives, ?_⟩
    exact Expr.fits_unary.mpr he.fits

theorem disjunction_reads (hin : ReadsInside room inner) :
    Reads .disjunction room (disjunction inner) := by
  have hfactor : Reads .factor room (factor inner) := leftAssociative_reads rfl (unary_reads hin)
  have hterm : Reads .term room (term inner) := leftAssociative_reads rfl hfactor
  have hcomparison : Reads .comparison room (comparison inner) := leftAssociative_reads rfl hterm
  have hequality : Reads .equality room (equality inner) := leftAssociative_reads rfl hcomparison
  have hconjunction : Reads .conjunction room (conjunction inner) :=
    leftAssociative_reads rfl hequality
  exact leftAssociative_reads rfl hconjunction

theorem assignment_reads (hin : ReadsInside room inner) :
    Reads .assignment room (assignment inner) := by
  intro p p' e hp h
  obtain ⟨left, p₁, h₁, h₂⟩ := Step.bind_eq_ok.mp h
  obtain ⟨ts, hts, hleft⟩ := disjunction_reads hin _ _ _ hp h₁
  obtain ⟨o, p₂, h₃, h₄⟩ := Step.bind_eq_ok.mp h₂
  rcases accept?_passes hts.ready (by simp) h₃ with ⟨rfl, rfl⟩ | ⟨equals, rfl, hk, hpass⟩
  · obtain ⟨rfl, rfl⟩ := Step.pure_eq_ok.mp h₄
    exact ⟨ts, hts, phrase_tighter rfl hleft⟩
  · obtain ⟨value, p₃, h₅, h₆⟩ := Step.bind_eq_ok.mp h₄
    obtain ⟨n, level, q, q', rfl, hr, -, hq, hpart, hnest⟩ := nested_reads hin hpass.ready h₅
    obtain ⟨us, hus, hvalue⟩ := hr _ _ _ hq hpart
    have hall := Parser.passes_trans hts (Parser.passes_trans hpass (hnest us hus))
    have hk := List.mem_singleton.mp hk
    -- what was read as an ordinary expression is now read again as a target
    split at h₆
    · obtain ⟨rfl, rfl⟩ := Step.pure_eq_ok.mp h₆
      obtain ⟨rfl, hn⟩ := hleft.derives.of_var
      exact ⟨_, hall, .assign hn hk hvalue.derives, Expr.fits_assign.mpr hvalue.fits⟩
    · obtain ⟨rfl, rfl⟩ := Step.pure_eq_ok.mp h₆
      obtain ⟨os, dot, rfl, hobject, hd, hn⟩ := hleft.derives.of_get
      refine ⟨_, hall, ?_, Expr.fits_set.mpr ⟨Expr.fits_get.mp hleft.fits, hvalue.fits⟩⟩
      have hset := Derives.set hobject hd hn hk hvalue.derives
      simpa using hset
    · cases h₆

/-! ## All levels -/

theorem inside_reads (room : Nat) : ReadsInside room (inside room) := by
  induction room with
  | zero => intro level h; cases h
  | succ n ih =>
    intro level h
    cases h
    exact ⟨n, rfl, assignment_reads ih, unary_reads ih⟩

theorem expression_reads {p p' : Parser} {e : Expr} (hp : p.Ready)
    (h : expression p = .ok e p') :
    ∃ ts, p.Passes ts p' ∧ Phrase .assignment (maxNesting - p.depth) ts e :=
  assignment_reads (inside_reads _) _ _ _ hp h

/-- A whole text is one expression, and nothing is left of it. -/
theorem whole_reads {p p' : Parser} {e : Expr} (hp : p.Ready) (h : whole p = .ok e p') :
    Phrase .assignment (maxNesting - p.depth) p.pending e
      ∧ ∃ line, p.ahead.ending = .finished line := by
  obtain ⟨e, p₁, h₁, h₂⟩ := Step.bind_eq_ok.mp h
  obtain ⟨ts, hts, he⟩ := expression_reads hp h₁
  obtain ⟨last, p₂, h₃, h₄⟩ := Step.bind_eq_ok.mp h₂
  obtain ⟨rfl, rfl⟩ := Step.pure_eq_ok.mp h₄
  -- the expression ends where the text does, so it took all tokens
  have hend : p₁.current.kind = .endOfText := (expect_eq_ok.mp h₃).1
  obtain ⟨line, -, hahead⟩ := hts.ready.at_end hend
  have hpend : p.pending = ts := by
    rw [hts.pending, Parser.pending, if_pos hend, List.append_nil]
  refine ⟨by rwa [hpend], line, ?_⟩
  rw [← hts.ending, hahead]

end Parse

/-! ## Texts -/

namespace Parser

/-- The parser at the start of a text has all tokens of the text in front of it. -/
theorem start_eq_ok {text : String} {p : Parser} (h : start text = .ok p) :
    p.pending = (Scan.ofText text).tokens ∧ p.ahead.ending = (Scan.ofText text).ending
      ∧ p.depth = 0 ∧ p.Ready := by
  have hl := Scan.ofText_lexed text
  unfold start at h
  generalize Scan.ofText text = scan at h hl
  obtain ⟨tokens, ending⟩ := scan
  cases tokens with
  | nil =>
      cases ending with
      | finished line =>
          cases h
          exact ⟨rfl, rfl, rfl, fun t ht => absurd ht (by simp [pending, Token.atEnd]),
            fun _ => ⟨line, rfl, rfl⟩⟩
      | unexpected c line => cases h
      | unterminated line last => cases h
  | cons t tokens =>
      cases h
      have ht : t.kind ≠ .endOfText := (hl t (by simp)).not_end
      have hpend : pending ⟨t, ⟨tokens, ending⟩, 0⟩ = t :: tokens := if_neg ht
      exact ⟨hpend, rfl, rfl, fun u hu => hl u (by rwa [hpend] at hu), fun he => absurd he ht⟩

end Parser

/--
**What a text is parsed as is derived from its tokens.**

If a text parses, then it also splits into tokens, and all of them but the one for the end derive
the expression. It stays within both limits.
-/
theorem parse_derives {text : String} {e : Expr} (h : parse text = .ok e) :
    ∃ tokens line, tokenize text = .ok (tokens ++ [Token.atEnd line])
      ∧ Derives .assignment tokens e
      ∧ e.arity ≤ maxArguments ∧ e.nesting ≤ maxNesting := by
  obtain ⟨p, p', hs, hw⟩ := parse_eq_ok.mp h
  obtain ⟨hpend, hending, hdepth, hready⟩ := Parser.start_eq_ok hs
  obtain ⟨he, line, hline⟩ := Parse.whole_reads hready hw
  rw [hpend, hdepth] at he
  have hscan : Scan.ofText text = ⟨(Scan.ofText text).tokens, .finished line⟩ := by
    rw [← hline, hending]
  exact ⟨_, line, tokenize_eq_ok.mpr ⟨_, line, hscan, rfl⟩, he.derives, he.fits.arity_le,
    he.fits.nesting_le⟩

/-- A property is set to what a sign, a call and an operator make of four variables. -/
theorem parse_derives_set :
    let name (lexeme : String) : Token := ⟨.identifier, lexeme, none, 1⟩
    let bang : Token := ⟨.bang, "!", none, 1⟩
    let either : Token := ⟨.orWord, "or", none, 1⟩
    let e : Expr := .set (.var (name "p")) (name "x")
      (.logical (.unary bang (.call (.var (name "f")) [.var (name "a"), .var (name "b")])) either
        (.var (name "c")))
    parse "p.x = !f(a, b) or c" = .ok e
      ∧ ∃ tokens line, tokenize "p.x = !f(a, b) or c" = .ok (tokens ++ [Token.atEnd line])
        ∧ Derives .assignment tokens e
        ∧ e.arity ≤ maxArguments ∧ e.nesting ≤ maxNesting := by
  intro name bang either e
  have hscan : Scan.ofText "p.x = !f(a, b) or c"
      = ⟨[name "p", ⟨.dot, ".", none, 1⟩, name "x", ⟨.equal, "=", none, 1⟩, bang, name "f",
          ⟨.leftParen, "(", none, 1⟩, name "a", ⟨.comma, ",", none, 1⟩, name "b",
          ⟨.rightParen, ")", none, 1⟩, either, name "c"], .finished 1⟩ := by rfl
  have hparse : parse "p.x = !f(a, b) or c" = .ok e := by
    unfold parse Parser.start
    rw [hscan]
    rfl
  exact ⟨hparse, parse_derives hparse⟩

end Lox

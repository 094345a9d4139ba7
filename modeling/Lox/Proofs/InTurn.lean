import Lox.Proofs.Lines
import Lox.Proofs.ParserComplete
import Lox.Proofs.ParserSound

/-!
# One expression after the other

A parser can be asked again when an expression is read, and then reads the next one. Expressions on
lines below each other are read in turn in this way, each as it is read alone, as long as no line
starts with a token that goes on with the line above it.

Two things make this work. A phrase does not notice the lines it stands on (`Derives.down`), so what
derives in a text of its own derives further down. And a parser that has read a phrase is a parser
in front of what follows, with no level open, as it would be at the start of a text.
-/

namespace Lox

/-! ## Expressions further down -/

namespace Expr

mutual

/-- The same expression with all its tokens `n` lines further down. -/
def down (n : Nat) : Expr → Expr
  | assign target operator value => assign (target.down n) (operator.down n) (value.down n)
  | binary left operator right => binary (left.down n) (operator.down n) (right.down n)
  | call callee arguments => call (callee.down n) (downList n arguments)
  | get object name => get (object.down n) (name.down n)
  | grouping inner => grouping (inner.down n)
  | literal value => literal value
  | logical left operator right => logical (left.down n) (operator.down n) (right.down n)
  | set object name value => set (object.down n) (name.down n) (value.down n)
  | unary operator right => unary (operator.down n) (right.down n)
  | var name => var (name.down n)

/-- The same expressions further down. -/
def downList (n : Nat) : List Expr → List Expr
  | [] => []
  | e :: es => e.down n :: downList n es

end

theorem downList_eq_map (n : Nat) (es : List Expr) : downList n es = es.map (down n) := by
  induction es with
  | nil => rfl
  | cons e es ih => rw [downList, ih, List.map_cons]

theorem combine_down (n : Nat) (rule : Rule) (left right : Expr) (operator : Token) :
    (rule.combine left operator right).down n
      = rule.combine (left.down n) (operator.down n) (right.down n) := by
  cases rule <;> rfl

mutual

/-- Both limits are about the shape of an expression, and not about its lines. -/
theorem limits_down (n : Nat) :
    ∀ e : Expr, (e.down n).nesting = e.nesting ∧ (e.down n).arity = e.arity
  | assign _ _ value => by
      obtain ⟨hnesting, harity⟩ := limits_down n value
      simp only [down, nesting, arity, hnesting, harity, and_self]
  | binary left _ right => by
      obtain ⟨hnesting, harity⟩ := limits_down n left
      obtain ⟨hnesting', harity'⟩ := limits_down n right
      simp only [down, nesting, arity, hnesting, harity, hnesting', harity', and_self]
  | call callee arguments => by
      obtain ⟨hnesting, harity⟩ := limits_down n callee
      obtain ⟨hnesting', harity', hlength⟩ := limits_downList n arguments
      simp only [down, nesting, arity, hnesting, harity, hnesting', harity', hlength, and_self]
  | get object _ => by
      obtain ⟨hnesting, harity⟩ := limits_down n object
      simp only [down, nesting, arity, hnesting, harity, and_self]
  | grouping inner => by
      obtain ⟨hnesting, harity⟩ := limits_down n inner
      simp only [down, nesting, arity, hnesting, harity, and_self]
  | literal _ => ⟨rfl, rfl⟩
  | logical left _ right => by
      obtain ⟨hnesting, harity⟩ := limits_down n left
      obtain ⟨hnesting', harity'⟩ := limits_down n right
      simp only [down, nesting, arity, hnesting, harity, hnesting', harity', and_self]
  | set object _ value => by
      obtain ⟨hnesting, harity⟩ := limits_down n object
      obtain ⟨hnesting', harity'⟩ := limits_down n value
      simp only [down, nesting, arity, hnesting, harity, hnesting', harity', and_self]
  | unary _ right => by
      obtain ⟨hnesting, harity⟩ := limits_down n right
      simp only [down, nesting, arity, hnesting, harity, and_self]
  | var _ => ⟨rfl, rfl⟩

theorem limits_downList (n : Nat) :
    ∀ es : List Expr, nestingOfList (downList n es) = nestingOfList es
      ∧ arityOfList (downList n es) = arityOfList es ∧ (downList n es).length = es.length
  | [] => ⟨rfl, rfl, rfl⟩
  | e :: es => by
      obtain ⟨hnesting, harity⟩ := limits_down n e
      obtain ⟨hnesting', harity', hlength⟩ := limits_downList n es
      simp only [downList, nestingOfList, arityOfList, hnesting, harity, hnesting', harity',
        List.length_cons, hlength, and_self]

end

theorem Fits.down {room : Nat} {e : Expr} (h : e.Fits room) (n : Nat) : (e.down n).Fits room := by
  obtain ⟨hnesting, harity⟩ := limits_down n e
  exact ⟨hnesting ▸ h.nesting_le, harity ▸ h.arity_le⟩

end Expr

/-! ## Phrases further down -/

theorem Separated.down {parts : List (List Token)} {ts : List Token} (h : Separated parts ts)
    (n : Nat) : Separated (parts.map (List.map (Token.down n))) (ts.map (Token.down n)) := by
  induction h with
  | none => exact .none
  | one => exact .one
  | @more ts rest next parts comma hcomma _ ih =>
      rw [List.map_append, List.map_cons, List.map_cons, List.map_cons]
      exact .more hcomma ih

/-- **A phrase is a phrase on any line.** -/
theorem Derives.down {rule : Rule} {ts : List Token} {e : Expr} (h : Derives rule ts e) (n : Nat) :
    Derives rule (ts.map (Token.down n)) (e.down n) := by
  induction h with
  | tighter ht _ ih => exact .tighter ht ih
  | assign hname hequals _ ih => exact .assign hname hequals ih
  | set _ hdot hname hequals _ ihobject ihvalue =>
      rw [List.map_append]
      exact .set ihobject hdot hname hequals ihvalue
  | operation _ hk ht _ ihleft ihright =>
      rw [List.map_append, Expr.combine_down]
      exact .operation ihleft hk ht ihright
  | unary hk _ ih => exact .unary hk ih
  | @call cs ts callee opening closing arguments _ hopening _ hs hclosing ih iha =>
      let moved := arguments.map fun a => (a.1.map (Token.down n), a.2.down n)
      have hphrases : ∀ a ∈ moved, Derives .assignment a.1 a.2 := by
        intro a ha
        obtain ⟨b, hb, rfl⟩ := List.mem_map.mp ha
        exact iha b hb
      have hparts : moved.map Prod.fst
          = (arguments.map Prod.fst).map (List.map (Token.down n)) := by
        rw [List.map_map, List.map_map]
        rfl
      have htrees : moved.map Prod.snd = Expr.downList n (arguments.map Prod.snd) := by
        rw [Expr.downList_eq_map, List.map_map, List.map_map]
        rfl
      have hs' : Separated (moved.map Prod.fst) (ts.map (Token.down n)) := by
        rw [hparts]
        exact hs.down n
      have hopening' : (opening.down n).kind = .leftParen := hopening
      have hclosing' : (closing.down n).kind = .rightParen := hclosing
      have hcall := Derives.call ih hopening' hphrases hs' hclosing'
      rw [htrees] at hcall
      simpa [Expr.down] using hcall
  | get _ hdot hname ih =>
      rw [List.map_append]
      exact .get ih hdot hname
  | grouping hopening _ hclosing ih =>
      rw [List.map_cons, List.map_append]
      exact .grouping hopening ih hclosing
  | literal hk hv => exact .literal hk hv
  | var hk => exact .var hk

/-! ## Phrases one behind the other -/

namespace TokenKind

/-- The kinds that an expression can start with, but that go on with no expression in front of
them. -/
def fresh : List TokenKind := .bang :: .identifier :: literals

theorem not_continuation_of_fresh {kind : TokenKind} (h : kind ∈ fresh) :
    kind ∉ Rule.continuations .assignment := by
  revert h
  cases kind <;> decide

end TokenKind

/-- A phrase of its own: an expression within the limits that derives from these tokens. -/
structure Sentence (ts : List Token) (e : Expr) : Prop where
  derives : Derives .assignment ts e
  fits : e.Fits maxNesting

open Lox.Parser (facing)

namespace Parser

variable {p p' : Parser} {e : Expr} {ts rest : List Token} {line : Nat}

theorem askAll_cons {request : Request} {later : List Request} (h : request.parse p = .ok e p') :
    p.askAll (request :: later) = (.ok e :: (p'.askAll later).1, (p'.askAll later).2) := by
  rw [askAll, ask_eq_ok.mpr h]

/-- A sentence is read up to its end, and leaves the parser in front of what follows. -/
theorem expression_sentence (h : Sentence ts e) (hs : (facing rest line 0).Stops .assignment) :
    Parse.expression (facing (ts ++ rest) line 0) = .ok e (facing rest line 0) :=
  (derives_accepts h.derives).1 maxNesting line 0 rest h.fits hs

/-- The last sentence of a text is read by a request of either kind. -/
theorem parse_last_sentence (request : Request) (line : Nat) (h : Sentence ts e) :
    request.parse (facing ts line 0) = .ok e (facing [] line 0) := by
  have hstops : (facing [] line 0).Stops .assignment := by
    show TokenKind.endOfText ∉ Rule.continuations .assignment
    decide
  have hread := expression_sentence h hstops
  rw [List.append_nil] at hread
  cases request with
  | expression => exact hread
  | whole =>
      have hend : Parse.expect .endOfExpression (facing [] line 0)
          = .ok (Token.atEnd line) (facing [] line 0) := Parse.expect_eq_ok.mpr ⟨rfl, rfl⟩
      exact Step.bind_ok hread (Step.bind_ok hend rfl)

/-- **Sentences are read in turn**, if each but the first starts with a token that goes on with
nothing. The last request may be of either kind. -/
theorem askAll_sentences (last : Request) (line : Nat) {first : List Token × Expr}
    {later : List (List Token × Expr)}
    (h : ∀ s ∈ first :: later, Sentence s.1 s.2)
    (hfresh : ∀ s ∈ later, ∃ t ts, s.1 = t :: ts ∧ t.kind ∈ TokenKind.fresh) :
    (facing ((first :: later).flatMap Prod.fst) line 0).askAll
        (List.replicate later.length .expression ++ [last])
      = ((first :: later).map fun s => .ok s.2, facing [] line 0) := by
  induction later generalizing first with
  | nil =>
    have hfirst := parse_last_sentence last line (h first (List.mem_cons_self ..))
    rw [List.flatMap_cons, List.flatMap_nil, List.append_nil]
    exact askAll_cons hfirst
  | cons next later ih =>
    -- the next sentence starts with a token that ends the first one
    obtain ⟨t, ts, hstart, hkind⟩ := hfresh next (List.mem_cons_self ..)
    have hstops : (facing ((next :: later).flatMap Prod.fst) line 0).Stops .assignment := by
      rw [List.flatMap_cons, hstart]
      exact TokenKind.not_continuation_of_fresh hkind
    have hfirst : Request.parse .expression
        (facing (first.1 ++ (next :: later).flatMap Prod.fst) line 0) = .ok first.2 _ :=
      expression_sentence (h first (List.mem_cons_self ..)) hstops
    have hlater := ih (fun s hs => h s (List.mem_cons_of_mem _ hs))
      (fun s hs => hfresh s (List.mem_cons_of_mem _ hs))
    rw [List.flatMap_cons, List.length_cons, List.replicate_succ, List.cons_append,
      askAll_cons hfirst, hlater]
    rfl

end Parser

/-! ## Texts one below the other -/

/-- A text that parses is a sentence. -/
theorem sentence_of_parse {text : String} {e : Expr} (h : parse text = .ok e) :
    ∃ tokens line, Scan.ofText text = ⟨tokens, .finished line⟩ ∧ Sentence tokens e := by
  obtain ⟨p, p', hstart, hwhole⟩ := parse_eq_ok.mp h
  obtain ⟨hpend, hending, hdepth, hready⟩ := Parser.start_eq_ok hstart
  obtain ⟨hphrase, line, hline⟩ := Parse.whole_reads hready hwhole
  rw [hpend, hdepth] at hphrase
  have hscan : Scan.ofText text = ⟨(Scan.ofText text).tokens, .finished line⟩ := by
    rw [← hline, hending]
  exact ⟨_, line, hscan, hphrase.derives, hphrase.fits⟩

/-- The text starts with a token that goes on with nothing. -/
def StartsFresh (text : String) : Prop :=
  ∃ t later, (Scan.ofText text).tokens = t :: later ∧ t.kind ∈ TokenKind.fresh

/-- The tokens and the expressions of texts that stand one below the other. Each is as many lines
further down as there are line ends above it; `above` of them stand above the first text. -/
def below (above : Nat) : List (String × Expr) → List (List Token × Expr)
  | [] => []
  | (text, e) :: later =>
    ((Scan.ofText text).tokens.map (Token.down above), e.down above)
      :: below (above + text.toList.count '\n' + 1) later

section Below

variable {texts : List (String × Expr)}

theorem length_below (above : Nat) (texts : List (String × Expr)) :
    (below above texts).length = texts.length := by
  induction texts generalizing above with
  | nil => rfl
  | cons s later ih => rw [below, List.length_cons, List.length_cons, ih]

theorem sentence_below (h : ∀ s ∈ texts, parse s.1 = .ok s.2) (above : Nat) :
    ∀ s ∈ below above texts, Sentence s.1 s.2 := by
  induction texts generalizing above with
  | nil => simp [below]
  | cons first later ih =>
    intro s hs
    rcases List.mem_cons.mp hs with rfl | hs
    · obtain ⟨tokens, line, hscan, hsentence⟩ := sentence_of_parse (h first (List.mem_cons_self ..))
      dsimp only
      rw [hscan]
      exact ⟨hsentence.derives.down above, hsentence.fits.down above⟩
    · exact ih (fun s hs => h s (List.mem_cons_of_mem _ hs)) _ s hs

theorem fresh_below (h : ∀ s ∈ texts, StartsFresh s.1) (above : Nat) :
    ∀ s ∈ below above texts, ∃ t ts, s.1 = t :: ts ∧ t.kind ∈ TokenKind.fresh := by
  induction texts generalizing above with
  | nil => simp [below]
  | cons first later ih =>
    intro s hs
    rcases List.mem_cons.mp hs with rfl | hs
    · obtain ⟨t, ts, hstart, hkind⟩ := h first (List.mem_cons_self ..)
      refine ⟨t.down above, ts.map (Token.down above), ?_, hkind⟩
      dsimp only
      rw [hstart, List.map_cons]
    · exact ih (fun s hs => h s (List.mem_cons_of_mem _ hs)) _ s hs

/-- **Texts one below the other have the tokens of all of them**, by induction on the texts, each of
which moves the ones below it further down. -/
theorem scan_below (h : ∀ s ∈ texts, parse s.1 = .ok s.2) (above : Nat) :
    ∃ line, Scan.ofCursor ((Cursor.start ("\n".intercalate (texts.map Prod.fst))).down above)
      = ⟨(below above texts).flatMap Prod.fst, .finished line⟩ := by
  induction texts generalizing above with
  | nil => exact ⟨1 + above, rfl⟩
  | cons first later ih =>
    obtain ⟨tokens, line, hscan, _⟩ := sentence_of_parse (h first (List.mem_cons_self ..))
    have hline := Scan.line_of_ofText hscan
    have hfirst : Scan.ofCursor ((Cursor.start first.1).down above)
        = ⟨(Scan.ofText first.1).tokens.map (Token.down above), .finished (line + above)⟩ := by
      rw [Scan.ofCursor_down]
      show (⟨(Scan.ofText first.1).tokens.map _, (Scan.ofText first.1).ending.down _⟩ : Scan) = _
      rw [hscan]
      rfl
    cases later with
    | nil =>
      refine ⟨line + above, ?_⟩
      rw [List.map_cons, List.map_nil, String.intercalate_singleton, hfirst]
      simp [below]
    | cons next later =>
      obtain ⟨last, hlater⟩ := ih (fun s hs => h s (List.mem_cons_of_mem _ hs))
        (above + first.1.toList.count '\n' + 1)
      refine ⟨last, ?_⟩
      have hstart : Cursor.start ("\n".intercalate ((first :: next :: later).map Prod.fst))
          = (Cursor.start first.1).join
              ("\n".intercalate ((next :: later).map Prod.fst)).toList := by
        rw [List.map_cons, List.map_cons, String.intercalate_cons_cons, Cursor.start_join]
      have hends : (Scan.ofCursor ((Cursor.start first.1).down above)).ending
          = .finished (line + above) := by
        rw [hfirst]
      have hjoin := Scan.ofCursor_join ("\n".intercalate ((next :: later).map Prod.fst)).toList
        ((Cursor.start first.1).down above) hends
      have hdown : (⟨("\n".intercalate ((next :: later).map Prod.fst)).toList,
            line + above + 1⟩ : Cursor)
          = (Cursor.start ("\n".intercalate ((next :: later).map Prod.fst))).down
            (above + first.1.toList.count '\n' + 1) := by
        rw [Cursor.down, hline]
        congr 1
        show _ = 1 + _
        omega
      rw [hfirst, hdown, hlater] at hjoin
      rw [hstart]
      exact hjoin

end Below

/--
**One parser reads texts one below the other as each of them is read alone.**

Each text parses, and each but the first starts with a token that goes on with nothing: a value, a
name or `!`. Then a parser of all of them, asked for an expression as often as there are texts,
answers with their expressions in turn, each as far down as it stands, and comes to the end of the
text with no level open. The last request may as well be for the whole of what is left.
-/
theorem expressions_in_turn {texts : List (String × Expr)}
    (h : ∀ s ∈ texts, parse s.1 = .ok s.2) (hfresh : ∀ s ∈ texts.tail, StartsFresh s.1) :
    ∃ p line, Parser.start ("\n".intercalate (texts.map Prod.fst)) = .ok p
      ∧ p.askAll (List.replicate texts.length .expression)
        = ((below 0 texts).map fun s => .ok s.2, ⟨Token.atEnd line, ⟨[], .finished line⟩, 0⟩)
      ∧ (texts ≠ [] → p.askAll (List.replicate (texts.length - 1) .expression ++ [.whole])
        = ((below 0 texts).map fun s => .ok s.2, ⟨Token.atEnd line, ⟨[], .finished line⟩, 0⟩)) := by
  obtain ⟨line, hscan⟩ := scan_below h 0
  refine ⟨facing ((below 0 texts).flatMap Prod.fst) line 0, line, ?_, ?_⟩
  · exact Parser.start_facing hscan
  · cases texts with
    | nil => exact ⟨rfl, fun hne => absurd rfl hne⟩
    | cons first later =>
      have hall := fun last => Parser.askAll_sentences last line (sentence_below h 0)
        (fresh_below hfresh _)
      rw [length_below] at hall
      refine ⟨?_, fun _ => hall .whole⟩
      rw [List.length_cons, List.replicate_succ']
      exact hall .expression

/-- A text of two lines and two texts of one line, the last of which starts with a sign. -/
theorem expressions_in_turn_three :
    let name (lexeme : String) (line : Nat) : Token := ⟨.identifier, lexeme, none, line⟩
    let texts : List (String × Expr) :=
      [("f(\na)", .call (.var (name "f" 1)) [.var (name "a" 2)]), ("b", .var (name "b" 1)),
        ("!c", .unary ⟨.bang, "!", none, 1⟩ (.var (name "c" 1)))]
    (∀ s ∈ texts, parse s.1 = .ok s.2) ∧ (∀ s ∈ texts.tail, StartsFresh s.1)
      ∧ ∃ p line, Parser.start "f(\na)\nb\n!c" = .ok p
        ∧ p.askAll [.expression, .expression, .expression]
          = ([.ok (.call (.var (name "f" 1)) [.var (name "a" 2)]), .ok (.var (name "b" 3)),
              .ok (.unary ⟨.bang, "!", none, 4⟩ (.var (name "c" 4)))],
            ⟨Token.atEnd line, ⟨[], .finished line⟩, 0⟩) := by
  intro name texts
  have hcall : Scan.ofText "f(\na)" = ⟨[name "f" 1, ⟨.leftParen, "(", none, 1⟩, name "a" 2,
      ⟨.rightParen, ")", none, 2⟩], .finished 2⟩ := rfl
  have hvar : Scan.ofText "b" = ⟨[name "b" 1], .finished 1⟩ := rfl
  have hsign : Scan.ofText "!c" = ⟨[⟨.bang, "!", none, 1⟩, name "c" 1], .finished 1⟩ := rfl
  have hparse : ∀ s ∈ texts, parse s.1 = .ok s.2 := by
    intro s hs
    rcases List.mem_cons.mp hs with rfl | hs
    · unfold parse Parser.start
      rw [hcall]
      rfl
    · rcases List.mem_cons.mp hs with rfl | hs
      · unfold parse Parser.start
        rw [hvar]
        rfl
      · obtain rfl := List.mem_singleton.mp hs
        unfold parse Parser.start
        rw [hsign]
        rfl
  have hfresh : ∀ s ∈ texts.tail, StartsFresh s.1 := by
    intro s hs
    rcases List.mem_cons.mp hs with rfl | hs
    · exact ⟨_, _, congrArg Scan.tokens hvar, by decide⟩
    · obtain rfl := List.mem_singleton.mp hs
      exact ⟨_, _, congrArg Scan.tokens hsign, by decide⟩
  obtain ⟨p, line, hstart, hall, _⟩ := expressions_in_turn hparse hfresh
  exact ⟨hparse, hfresh, p, line, hstart, hall⟩

end Lox

import Lox.Proofs.Beginnings

/-!
# The grammar with anything in front of `=`

A parser reads the left side of an `=` as it reads any other expression, and looks only behind the
value whether something can be assigned to it. Up to there it follows a grammar that asks for no
target, with the same limits. `Loose room rule ts` is that grammar, for the tokens alone: there is
no tree for an assignment to something else.

What is derived has a place in it, and what has begun and is not wrong yet can be completed in it.
The other way round, what has a place in it is derived, or it goes wrong because of a left side that
is no target.
-/

namespace Lox

open Parse (PhraseList phraseList_nil phraseList_one phraseList_cons phrase_tighter)

/--
`Loose room rule ts`: the tokens `ts` are a phrase of the rule in which at most `room` levels are
open, if anything may stand in front of an `=`.
-/
inductive Loose : Nat → Rule → List Token → Prop where
  | tighter {room : Nat} {rule next : Rule} {ts : List Token} :
      rule.tighter? = some next → Loose room next ts → Loose room rule ts
  | assign {room : Nat} {ls rs : List Token} {equals : Token} :
      Loose (room + 1) .disjunction ls → equals.kind = .equal → Loose room .assignment rs →
      Loose (room + 1) .assignment (ls ++ equals :: rs)
  | operation {room : Nat} {rule next : Rule} {ls rs : List Token} {operator : Token} :
      Loose room rule ls → operator.kind ∈ rule.operators → rule.tighter? = some next →
      Loose room next rs → Loose room rule (ls ++ operator :: rs)
  | unary {room : Nat} {ts : List Token} {operator : Token} :
      operator.kind ∈ TokenKind.signs → Loose room .unary ts →
      Loose (room + 1) .unary (operator :: ts)
  | call {room : Nat} {cs ts : List Token} {opening closing : Token}
      {arguments : List (List Token)} :
      Loose (room + 1) .call cs → opening.kind = .leftParen →
      (∀ a ∈ arguments, Loose room .assignment a) → Separated arguments ts →
      arguments.length ≤ maxArguments → closing.kind = .rightParen →
      Loose (room + 1) .call (cs ++ opening :: (ts ++ [closing]))
  | get {room : Nat} {os : List Token} {dot name : Token} :
      Loose room .call os → dot.kind = .dot → name.kind = .identifier →
      Loose room .call (os ++ [dot, name])
  | grouping {room : Nat} {ts : List Token} {opening closing : Token} :
      opening.kind = .leftParen → Loose room .assignment ts → closing.kind = .rightParen →
      Loose (room + 1) .primary (opening :: (ts ++ [closing]))
  | literal {room : Nat} {token : Token} {value : Value} :
      token.kind ∈ TokenKind.literals → token.literal = some value → Loose room .primary [token]
  | var {room : Nat} {name : Token} : name.kind = .identifier → Loose room .primary [name]

variable {rule next : Rule} {room n k count : Nat} {ts us vs ws : List Token} {t : Token}
  {e : Expr} {error : SyntaxError}

namespace Loose

/-- A phrase has a first token, and its kind is one that the rule starts with. -/
theorem starts (h : Loose room rule ts) :
    ∃ first later, ts = first :: later ∧ first.kind ∈ rule.starts := by
  induction h with
  | tighter hr _ ih =>
      obtain ⟨t, later, rfl, ht⟩ := ih
      exact ⟨t, later, rfl, Rule.starts_of_tighter hr ht⟩
  | assign _ _ _ ih _ =>
      obtain ⟨t, later, rfl, ht⟩ := ih
      exact ⟨t, _, rfl, ht⟩
  | operation _ _ _ _ ih _ =>
      obtain ⟨t, later, rfl, ht⟩ := ih
      exact ⟨t, _, rfl, ht⟩
  | unary hk _ _ => exact ⟨_, _, rfl, List.mem_append_left _ hk⟩
  | call _ _ _ _ _ _ ih _ =>
      obtain ⟨t, later, rfl, ht⟩ := ih
      exact ⟨t, _, rfl, ht⟩
  | get _ _ _ ih =>
      obtain ⟨t, later, rfl, ht⟩ := ih
      exact ⟨t, _, rfl, ht⟩
  | grouping ho _ _ _ => exact ⟨_, _, rfl, by simp [ho, Rule.starts]⟩
  | literal hk _ => exact ⟨_, _, rfl, List.mem_cons_of_mem _ (List.mem_cons_of_mem _ hk)⟩
  | var hk => exact ⟨_, _, rfl, by simp [hk, Rule.starts]⟩

/-- What can be called can stand in front of an `=`. -/
theorem disjunction_of_call (h : Loose room .call ts) : Loose room .disjunction ts := by
  have hterm : Loose room .term ts := .tighter rfl (.tighter rfl (.tighter rfl h))
  have hequality : Loose room .equality ts := .tighter rfl (.tighter rfl hterm)
  exact .tighter rfl (.tighter rfl hequality)

end Loose

/-! ## What is derived -/

/-- **A phrase has its place in the loose grammar**, by induction on its derivation. -/
theorem Derives.loose (h : Derives rule ts e) (he : e.Fits room) : Loose room rule ts := by
  induction h generalizing room with
  | tighter hr _ ih => exact .tighter hr (ih he)
  | assign hname hequals _ ih =>
      obtain ⟨n, rfl⟩ := he.exists_inside (by rw [Expr.nesting]; omega)
      have hleft : Loose (n + 1) .call [_] := .tighter rfl (.var hname)
      exact .assign hleft.disjunction_of_call hequals (ih (Expr.fits_assign.mp he))
  | @set os ts _ _ dot name equals _ hdot hname hequals _ iho ihv =>
      obtain ⟨n, rfl⟩ := he.exists_inside (by rw [Expr.nesting]; omega)
      obtain ⟨hobject, hvalue⟩ := Expr.fits_set.mp he
      have hleft : Loose (n + 1) .call (os ++ [dot, name]) := .get (iho hobject) hdot hname
      have hset := Loose.assign hleft.disjunction_of_call hequals (ihv hvalue)
      rwa [List.append_assoc] at hset
  | operation _ hk hr _ ihl ihr =>
      obtain ⟨hleft, hright⟩ := Expr.fits_combine.mp he
      exact .operation (ihl hleft) hk hr (ihr hright)
  | unary hk _ ih =>
      obtain ⟨n, rfl⟩ := he.exists_inside (by rw [Expr.nesting]; omega)
      exact .unary hk (ih (Expr.fits_unary.mp he))
  | @call _ _ _ _ _ arguments _ ho _ hs hclosing ihc iha =>
      obtain ⟨n, rfl⟩ := he.exists_inside (by rw [Expr.nesting]; omega)
      obtain ⟨hcallee, hlen, hfits⟩ := Expr.fits_call.mp he
      rw [List.length_map] at hlen
      refine .call (ihc hcallee) ho (fun a ha => ?_) hs (by rwa [List.length_map]) hclosing
      obtain ⟨argument, hmem, rfl⟩ := List.mem_map.mp ha
      exact iha argument hmem (hfits _ (List.mem_map_of_mem hmem))
  | get _ hdot hname ih => exact .get (ih (Expr.fits_get.mp he)) hdot hname
  | grouping ho _ hclosing ih =>
      obtain ⟨n, rfl⟩ := he.exists_inside (by rw [Expr.nesting]; omega)
      exact .grouping ho (ih (Expr.fits_grouping.mp he)) hclosing
  | literal hk hv => exact .literal hk hv
  | var hk => exact .var hk

theorem Phrase.loose (h : Phrase rule room ts e) : Loose room rule ts := h.derives.loose h.fits

/-! ## What has begun -/

/-- Arguments that are listed and one more behind them are separated by commas. -/
theorem Listed.separated (h : Listed room count us) (hv : Loose room .assignment vs) :
    ∃ arguments, Separated arguments (us ++ vs) ∧ arguments.length = count + 1
      ∧ ∀ a ∈ arguments, Loose room .assignment a := by
  induction h with
  | nil => exact ⟨[vs], .one, rfl, List.forall_mem_singleton.mpr hv⟩
  | @cons count ts us e comma he hcomma _ ih =>
      obtain ⟨arguments, hs, hlen, ha⟩ := ih
      cases arguments with
      | nil => cases hlen
      | cons a arguments =>
          refine ⟨ts :: a :: arguments, ?_, congrArg (· + 1) hlen, ?_⟩
          · rw [List.append_assoc]
            exact .more hcomma hs
          · exact List.forall_mem_cons.mpr ⟨he.loose, ha⟩

/-- The token that an error says is found where it should not be. -/
def SyntaxError.found? : SyntaxError → Option Token
  | unexpectedToken _ found => some found
  | expectedExpression found => some found
  | _ => none

/-- It is the token behind what has begun. -/
theorem Fault.found?_eq {found : Token} (h : Fault t room k rule ts error)
    (hfound : error.found? = some found) : found = t := by
  induction h with
  | noExpression _ => exact (Option.some.inj hfound).symm
  | unclosedGrouping _ _ _ _ => exact (Option.some.inj hfound).symm
  | noName _ _ _ => exact (Option.some.inj hfound).symm
  | unclosedArguments _ _ _ _ _ _ _ _ => exact (Option.some.inj hfound).symm
  | tighter _ _ _ ih => exact ih hfound
  | operand _ _ _ _ ih => exact ih hfound
  | sign _ _ ih => exact ih hfound
  | grouping _ _ ih => exact ih hfound
  | argument _ _ _ _ _ _ ih => exact ih hfound
  | value _ _ _ ih => exact ih hfound
  -- the other errors are about something else
  | _ => cases hfound

/-- **What has begun and is not wrong yet can be completed**, by induction on the place: with a name
where an expression or a property is missing, and with a parenthesis for each one that is open. -/
theorem Fault.completes {found : Token} (h : Fault t room k rule ts error)
    (hfound : error.found? = some found) : ∃ more, Loose room rule (ts ++ more) := by
  let name : Token := ⟨.identifier, "a", none, t.line⟩
  let closing : Token := ⟨.rightParen, ")", none, t.line⟩
  induction h with
  | noExpression _ => exact ⟨[name], .var rfl⟩
  | unclosedGrouping ho he _ _ => exact ⟨[closing], .grouping ho he.loose rfl⟩
  | noName ho hd _ =>
      refine ⟨[name], ?_⟩
      rw [List.append_assoc]
      exact .get ho.loose hd rfl
  | @unclosedArguments _ cs us _ opening arguments hc ho ha _ hlen _ _ _ =>
      refine ⟨[closing], ?_⟩
      rw [List.append_assoc]
      refine .call hc.loose ho (fun a hmem => ?_) ha.separated (by rwa [List.length_map]) rfl
      obtain ⟨argument, hargument, rfl⟩ := List.mem_map.mp hmem
      exact (ha.phrases argument hargument).loose
  | tighter hr _ _ ih =>
      obtain ⟨more, hmore⟩ := ih hfound
      exact ⟨more, .tighter hr hmore⟩
  | operand hl hk hr _ ih =>
      obtain ⟨more, hmore⟩ := ih hfound
      refine ⟨more, ?_⟩
      rw [List.append_assoc]
      exact .operation hl.loose hk hr hmore
  | sign hk _ ih =>
      obtain ⟨more, hmore⟩ := ih hfound
      exact ⟨more, .unary hk hmore⟩
  | grouping ho _ ih =>
      obtain ⟨more, hmore⟩ := ih hfound
      refine ⟨more ++ [closing], ?_⟩
      rw [List.cons_append, ← List.append_assoc]
      exact .grouping ho hmore rfl
  | @argument _ _ _ cs us vs _ opening _ hc ho hl hcount _ _ ih =>
      obtain ⟨more, hmore⟩ := ih hfound
      obtain ⟨arguments, hs, hlen, ha⟩ := hl.separated hmore
      have hwords : cs ++ opening :: (us ++ vs) ++ (more ++ [closing])
          = cs ++ opening :: (us ++ (vs ++ more) ++ [closing]) := by simp
      refine ⟨more ++ [closing], ?_⟩
      rw [hwords]
      exact .call hc.loose ho ha hs (hlen ▸ hcount) rfl
  | value hl hk _ ih =>
      obtain ⟨more, hmore⟩ := ih hfound
      refine ⟨more, ?_⟩
      rw [List.append_assoc]
      exact .assign hl.loose hk hmore
  | _ => cases hfound

/-! ## Left sides that are no target -/

/-- In the tokens `ts` and the token `t` behind them there is a place where a left side turns out to
be no target. -/
def Spoiled (room : Nat) (rule : Rule) (ts : List Token) (t : Token) : Prop :=
  ∃ k us found line, us ++ [found] <+: ts ++ [t]
    ∧ Fault found room k rule us (.invalidAssignmentTarget line)

/-- What is spoiled is so in something longer, too. -/
theorem Spoiled.mono {t' : Token} (h : Spoiled room rule vs t') (hpart : vs ++ [t'] <+: ts ++ [t]) :
    Spoiled room rule ts t := by
  obtain ⟨k, us, found, line, hpre, hfault⟩ := h
  exact ⟨k, us, found, line, hpre.trans hpart, hfault⟩

/-- A phrase is spoiled if a part of it is, which is in it behind the tokens `ws`. -/
theorem Spoiled.within {t' : Token} (h : Spoiled n next vs t') (ws : List Token)
    (hpart : ws ++ (vs ++ [t']) <+: ts ++ [t])
    (hf : ∀ {k us found line}, us ++ [found] <+: vs ++ [t'] →
      Fault found n k next us (.invalidAssignmentTarget line) →
      ∃ k', Fault found room k' rule (ws ++ us) (.invalidAssignmentTarget line)) :
    Spoiled room rule ts t := by
  obtain ⟨k, us, found, line, hpre, hfault⟩ := h
  obtain ⟨k', hwhole⟩ := hf hpre hfault
  refine ⟨k', ws ++ us, found, line, ?_, hwhole⟩
  rw [List.append_assoc]
  exact ((List.prefix_append_right_inj ws).mpr hpre).trans hpart

theorem concat_prefix_append_cons (ts us : List Token) (t : Token) : ts ++ [t] <+: ts ++ t :: us :=
  (List.prefix_append_right_inj ts).mpr (List.cons_prefix_cons.mpr ⟨rfl, List.nil_prefix⟩)

/-- What begins the tokens of a phrase, and one more token, starts as the phrase does. -/
theorem headD_of_prefix_cons {first found : Token} {later : List Token}
    (h : us ++ [found] <+: first :: later) : us.headD found = first := by
  cases us with
  | nil => exact (List.cons_prefix_cons.mp h).1
  | cons u us => exact (List.cons_prefix_cons.mp h).1

/-- What has a target in front of `=` is derived. -/
theorem Phrase.assigned {ls rs : List Token} {left value : Expr} {equals : Token}
    (hl : Phrase .disjunction (n + 1) ls left) (htarget : left.isTarget = true)
    (hk : equals.kind = .equal) (hv : Phrase .assignment n rs value) :
    ∃ e, Phrase .assignment (n + 1) (ls ++ equals :: rs) e := by
  cases left with
  | var name =>
      obtain ⟨rfl, hname⟩ := hl.derives.of_var
      exact ⟨_, .assign hname hk hv.derives, Expr.fits_assign.mpr hv.fits⟩
  | get object name =>
      obtain ⟨os, dot, rfl, ho, hd, hname⟩ := hl.derives.of_get
      have hset := Derives.set ho hd hname hk hv.derives
      have hwords : os ++ [dot, name] ++ equals :: rs = os ++ dot :: name :: equals :: rs := by simp
      rw [hwords]
      exact ⟨_, hset, Expr.fits_set.mpr ⟨Expr.fits_get.mp hl.fits, hv.fits⟩⟩
  | _ => cases htarget

/-- Arguments between commas are phrases, or one of them is spoiled and those in front of it are
phrases. -/
theorem arguments_phrases_or_spoiled {arguments : List (List Token)} (hs : Separated arguments ts)
    (ha : ∀ a ∈ arguments, ∀ t : Token, t.kind ∉ Rule.continuations .assignment →
      (∃ e, Phrase .assignment room a e) ∨ Spoiled room .assignment a t)
    (ht : t.kind ∉ Rule.continuations .assignment) :
    (∃ phrases, PhraseList room ts phrases ∧ phrases.length = arguments.length)
      ∨ ∃ count us vs t', Listed room count us ∧ count < arguments.length ∧ vs ∈ arguments
        ∧ Spoiled room .assignment vs t' ∧ us ++ (vs ++ [t']) <+: ts ++ [t] := by
  induction hs with
  | none => exact Or.inl ⟨[], phraseList_nil, rfl⟩
  | @one ts =>
      rcases ha ts (List.mem_cons_self ..) t ht with ⟨e, he⟩ | hspoiled
      · exact Or.inl ⟨_, phraseList_one he, rfl⟩
      · exact Or.inr ⟨0, [], ts, t, .nil, Nat.zero_lt_one, List.mem_cons_self .., hspoiled,
          List.prefix_refl _⟩
  | @more ts later next parts comma hcomma hs ih =>
      have hstop : comma.kind ∉ Rule.continuations .assignment := by rw [hcomma]; decide
      rcases ha ts (List.mem_cons_self ..) comma hstop with ⟨e, he⟩ | hspoiled
      · rcases ih fun a hmem => ha a (List.mem_cons_of_mem _ hmem) with
          ⟨phrases, hphrases, hlen⟩ | ⟨count, us, vs, t', hl, hcount, hmem, hspoiled, hpart⟩
        · have hne : phrases ≠ [] := fun hnil => by rw [hnil] at hlen; cases hlen
          exact Or.inl ⟨_, phraseList_cons he hcomma hphrases hne, congrArg (· + 1) hlen⟩
        · refine Or.inr ⟨count + 1, ts ++ comma :: us, vs, t', .cons he hcomma hl,
            Nat.succ_lt_succ hcount, List.mem_cons_of_mem _ hmem, hspoiled, ?_⟩
          rw [List.append_assoc, List.append_assoc]
          exact (List.prefix_append_right_inj _).mpr (List.cons_prefix_cons.mpr ⟨rfl, hpart⟩)
      · refine Or.inr ⟨0, [], ts, comma, .nil, Nat.zero_lt_succ _, List.mem_cons_self ..,
          hspoiled, ?_⟩
        rw [List.nil_append, List.append_assoc]
        exact concat_prefix_append_cons ..

/-- **What has a place in the loose grammar is a phrase, or a left side in it is no target**, by
induction on the derivation. In front of a token that goes on with an assignment, its value would
not have ended yet, so the left side of that is not looked at. -/
theorem Loose.phrase_or_spoiled (h : Loose room rule ts) {t : Token}
    (ht : rule = .assignment → t.kind ∉ Rule.continuations .assignment) :
    (∃ e, Phrase rule room ts e) ∨ Spoiled room rule ts t := by
  induction h generalizing t with
  | @tighter room rule next ts hr hloose ih =>
      have hnext : next ≠ .assignment := by
        rintro rfl
        cases rule <;> cases hr
      rcases ih (t := t) (fun hn => absurd hn hnext) with ⟨e, he⟩ | hspoiled
      · exact Or.inl ⟨e, phrase_tighter hr he⟩
      · obtain ⟨k, us, found, line, hpre, hf⟩ := hspoiled
        refine Or.inr ⟨k, us, found, line, hpre, .tighter hr (fun hu => ?_) hf⟩
        subst hu
        cases hr
        obtain ⟨first, later, rfl, hstart⟩ := hloose.starts
        rw [headD_of_prefix_cons hpre]
        exact Rule.call_start_not_sign hstart
  | @assign room ls rs equals _ hk _ ihl ihr =>
      rcases ihl (t := equals) nofun with ⟨left, hl⟩ | hspoiled
      · rcases ihr (t := t) fun _ => ht rfl with ⟨value, hv⟩ | hspoiled
        · cases htarget : left.isTarget with
          | true => exact Or.inl (hl.assigned htarget hk hv)
          | false =>
              exact Or.inr ⟨0, _, t, equals.line, List.prefix_refl _,
                .noTarget hl htarget hk hv (ht rfl)⟩
        · refine Or.inr (hspoiled.within (ls ++ [equals]) (by simp) fun _ hf => ?_)
          rw [List.append_assoc]
          exact ⟨_, .value hl hk hf⟩
      · refine Or.inr (hspoiled.within [] ?_ fun _ hf => ⟨_, .tighter rfl nofun hf⟩)
        rw [List.append_assoc]
        exact concat_prefix_append_cons ..
  | @operation room rule next ls rs operator _ hk hr _ ihl ihr =>
      have hrule : rule ≠ .assignment := by
        rintro rfl
        cases hk
      have hnext : next ≠ .assignment := by
        rintro rfl
        cases rule <;> cases hr
      rcases ihl (t := operator) (fun h => absurd h hrule) with ⟨left, hl⟩ | hspoiled
      · rcases ihr (t := t) (fun h => absurd h hnext) with ⟨right, hright⟩ | hspoiled
        · exact Or.inl ⟨_, .operation hl.derives hk hr hright.derives,
            Expr.fits_combine.mpr ⟨hl.fits, hright.fits⟩⟩
        · refine Or.inr (hspoiled.within (ls ++ [operator]) (by simp) fun _ hf => ?_)
          rw [List.append_assoc]
          exact ⟨_, .operand hl hk hr hf⟩
      · refine Or.inr (hspoiled.mono ?_)
        rw [List.append_assoc]
        exact concat_prefix_append_cons ..
  | @unary room ts operator hk _ ih =>
      rcases ih (t := t) nofun with ⟨right, hright⟩ | hspoiled
      · exact Or.inl ⟨_, .unary hk hright.derives, Expr.fits_unary.mpr hright.fits⟩
      · exact Or.inr (hspoiled.within [operator] (List.prefix_refl _) fun _ hf =>
          ⟨_, .sign hk hf⟩)
  | @call room cs ts opening closing arguments _ ho ha hs hlen hclosing ihc iha =>
      rcases ihc (t := opening) nofun with ⟨callee, hc⟩ | hspoiled
      · have hstop : closing.kind ∉ Rule.continuations .assignment := by rw [hclosing]; decide
        have hread := fun a hmem t ht => iha a hmem (t := t) fun _ => ht
        rcases arguments_phrases_or_spoiled hs hread hstop with
          ⟨phrases, hphrases, hsame⟩ | ⟨count, us, vs, t', hl, hcount, hmem, hspoiled, hpart⟩
        · refine Or.inl ⟨.call callee (phrases.map Prod.snd), ?_, ?_⟩
          · exact .call hc.derives ho (fun a hmem => (hphrases.phrases a hmem).derives)
              hphrases.separated hclosing
          · refine Expr.fits_call.mpr ⟨hc.fits, ?_, fun a hmem => ?_⟩
            · rwa [List.length_map, hsame]
            · obtain ⟨argument, hargument, rfl⟩ := List.mem_map.mp hmem
              exact (hphrases.phrases argument hargument).fits
        · have hwhole : cs ++ opening :: us ++ (vs ++ [t'])
              <+: cs ++ opening :: (ts ++ [closing]) ++ [t] := by
            rw [List.append_assoc, List.append_assoc]
            refine (List.prefix_append_right_inj cs).mpr (List.cons_prefix_cons.mpr ⟨rfl, ?_⟩)
            exact hpart.trans (List.prefix_append ..)
          refine Or.inr (hspoiled.within (cs ++ opening :: us) hwhole fun hpre hf => ?_)
          -- an argument does not start with the parenthesis that ends the list
          obtain ⟨first, later, rfl, hstart⟩ := (ha vs hmem).starts
          rw [List.append_assoc]
          refine ⟨_, .argument hc ho hl (Nat.lt_of_lt_of_le hcount hlen) (fun _ => ?_) hf⟩
          rw [headD_of_prefix_cons hpre]
          exact Rule.start_not_closing hstart
      · refine Or.inr (hspoiled.mono ?_)
        rw [List.append_assoc]
        exact concat_prefix_append_cons ..
  | @get room os dot name _ hd hname ih =>
      rcases ih (t := dot) nofun with ⟨object, ho⟩ | hspoiled
      · exact Or.inl ⟨_, .get ho.derives hd hname, Expr.fits_get.mpr ho.fits⟩
      · refine Or.inr (hspoiled.mono ?_)
        rw [List.append_assoc]
        exact concat_prefix_append_cons ..
  | @grouping room ts opening closing ho _ hclosing ih =>
      have hstop : closing.kind ∉ Rule.continuations .assignment := by rw [hclosing]; decide
      rcases ih (t := closing) fun _ => hstop with ⟨e, he⟩ | hspoiled
      · exact Or.inl ⟨_, .grouping ho he.derives hclosing, Expr.fits_grouping.mpr he.fits⟩
      · refine Or.inr (hspoiled.within [opening] ?_ fun _ hf => ⟨_, .grouping ho hf⟩)
        exact ⟨[t], by simp⟩
  | literal hk hv => exact Or.inl ⟨_, .literal hk hv, Expr.fits_literal⟩
  | var hk => exact Or.inl ⟨_, .var hk, Expr.fits_var⟩

end Lox

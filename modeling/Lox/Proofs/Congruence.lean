import Lox.Proofs.FaithfulJson
import Lox.Proofs.References
import Lox.Session

/-!
# What equal expressions have in common

Equality compares the literals of tokens, too. But nothing else goes by them: a token is printed,
recorded and evaluated by its kind, its lexeme and its line, and in equal tokens these are the same
(`Token.SameUse`). What is left is the values of literal nodes, and of these the two zeros are
equal. Both are printed as one text. It takes a document or a division to tell them apart.
-/

namespace Lox

/-! ## Lines and references -/

namespace Expr

section

variable {V : Value → Value → Prop}

theorem Alike.line?_eq : ∀ {e e' : Expr}, e.Alike Token.SameUse V e' → e.line? = e'.line?
  | _, _, .assign ht _ _ => congrArg some ht.line
  | _, _, .binary _ ho _ => congrArg some ho.line
  | _, _, .call hc _ => by rw [line?, line?, hc.line?_eq]
  | _, _, .get _ hn => congrArg some hn.line
  | _, _, .grouping he => by rw [line?, line?, he.line?_eq]
  | _, _, .literal _ => rfl
  | _, _, .logical _ ho _ => congrArg some ho.line
  | _, _, .set _ hn _ => congrArg some hn.line
  | _, _, .unary ho _ => congrArg some ho.line
  | _, _, .var hn => congrArg some hn.line

mutual

/-- **The references go by lexemes and lines only**, whatever the values are. -/
theorem Alike.references_eq : ∀ {e e' : Expr}, e.Alike Token.SameUse V e' →
    ∀ c : Bool, e.references c = e'.references c
  | _, _, .assign ht _ hv, c => by
      rw [references, references, hv.references_eq c, ht.lexeme, ht.line]
  | _, _, .binary hl _ hr, c => by
      rw [references, references, hl.references_eq c, hr.references_eq c]
  | _, _, .call hc has, c => by
      rw [references, references, hc.references_eq c, has.references_eq c]
  | _, _, .get he _, c => by rw [references, references, he.references_eq c]
  | _, _, .grouping he, c => by rw [references, references, he.references_eq c]
  | _, _, .literal _, c => rfl
  | _, _, .logical hl _ hr, c => by
      rw [references, references, hl.references_eq c, hr.references_eq true]
  | _, _, .set he _ hv, c => by
      rw [references, references, he.references_eq c, hv.references_eq c]
  | _, _, .unary _ hr, c => by rw [references, references, hr.references_eq c]
  | _, _, .var hn, c => by rw [references, references, hn.lexeme, hn.line]

theorem AlikeList.references_eq : ∀ {es es' : List Expr}, AlikeList Token.SameUse V es es' →
    ∀ c : Bool, referencesOfList c es = referencesOfList c es'
  | _, _, .nil, c => rfl
  | _, _, .cons he hes, c => by
      rw [referencesOfList, referencesOfList, he.references_eq c, hes.references_eq c]

end

/-- So any resolver takes the two for one. -/
theorem Alike.resolve_eq {e e' : Expr} (h : e.Alike Token.SameUse V e') (r : Resolver) :
    r.resolve e = r.resolve e' := Resolver.resolve_congr (h.references_eq false) r

end

end Expr

/-! ## Evaluation -/

namespace Eval

open Lox.Expr (Alike AlikeList)

mutual

/-- **Expressions with the same values are evaluated by the same steps**, whatever literals stand in
their tokens. -/
theorem expr_eq_of_alike (host : Host) :
    ∀ {e e' : Expr}, e.Alike Token.SameUse Eq e' → expr host e = expr host e'
  | _, _, .assign ht _ hv => by
      rw [expr, expr, expr_eq_of_alike host hv, ht.congr assignVariable fun _ _ => rfl]
  | _, _, .binary hl ho hr => by
      rw [expr, expr, expr_eq_of_alike host hl, expr_eq_of_alike host hr,
        ho.congr binary fun _ _ => rfl]
  | _, _, .call hc has => by
      rw [expr, expr, expr_eq_of_alike host hc, exprs_eq_of_alike host has, hc.line?_eq]
  | _, _, .get he hn => by
      rw [expr, expr, expr_eq_of_alike host he]
      exact hn.congr (fun name => expr host _ >>= (getProperty · name)) fun _ _ => rfl
  | _, _, .grouping he => by rw [expr, expr, expr_eq_of_alike host he]
  | _, _, .literal hv => by rw [hv]
  | _, _, .logical hl ho hr => by
      rw [expr, expr, expr_eq_of_alike host hl, expr_eq_of_alike host hr,
        ho.congr settles fun _ _ => rfl]
  | _, _, .set he hn hv => by
      rw [expr, expr, expr_eq_of_alike host he, expr_eq_of_alike host hv, hn.lexeme, hn.line]
  | _, _, .unary ho hr => by
      rw [expr, expr, expr_eq_of_alike host hr, ho.congr unary fun _ _ => rfl]
  | _, _, .var hn => by rw [expr, expr, hn.congr readVariable fun _ _ => rfl]

theorem exprs_eq_of_alike (host : Host) :
    ∀ {es es' : List Expr}, AlikeList Token.SameUse Eq es es' → exprs host es = exprs host es'
  | _, _, .nil => rfl
  | _, _, .cons he hes => by
      rw [exprs, exprs, expr_eq_of_alike host he, exprs_eq_of_alike host hes]

end

end Eval

theorem Session.evaluate_eq_of_alike {e e' : Expr} (h : e.Alike Token.SameUse Eq e')
    (s : Session) : s.evaluate e = s.evaluate e' := by
  unfold evaluate
  rw [Eval.expr_eq_of_alike s.host h]

/--
**Equality of expressions is a congruence, but for the sign of zero.**

It is symmetric and transitive, and an expression is equal to itself if and only if neither a token
in it has an undefined number for its literal nor a literal node for its value. Expressions that are
equal are printed as the same text, have the same line, and any resolver records the same for them
or fails with the same error. If no literal node of them is the zero with a minus sign, then their
documents have the same text as well, on one line or on many, and any session evaluates them to the
same object or the same error and becomes the same.
-/
theorem equality_is_congruence (a b c : Expr) :
    (a == b) = (b == a)
      ∧ ((a == b) = true → (b == c) = true → (a == c) = true)
      ∧ ((a == a) = true ↔ (∀ t, a.Holds t → t.literal ≠ some (.number Float.nan))
          ∧ a.LiteralsAre (· ≠ .number Float.nan))
      ∧ ((a == b) = true →
          a.render = b.render ∧ a.line? = b.line? ∧ (∀ r : Resolver, r.resolve a = r.resolve b)
          ∧ (a.LiteralsAre (· ≠ .number (-0.0)) → b.LiteralsAre (· ≠ .number (-0.0)) →
              a.jsonText = b.jsonText ∧ a.indentedJsonText = b.indentedJsonText
              ∧ ∀ s : Session, s.evaluate a = s.evaluate b)) := by
  refine ⟨BEq.comm, BEq.trans, Expr.beq_self_iff, fun h => ?_⟩
  have halike := Expr.beq_iff_alike.mp h
  have huse : ∀ t t' : Token, (t == t') = true → t.SameUse t' :=
    fun _ _ ht => (Token.beq_iff.mp ht).1
  have hnodes : a.Alike Token.SameUse (· == ·) b :=
    halike.imp (fun t t' _ _ => huse t t') fun _ _ _ _ hv => hv
  refine ⟨?_, hnodes.line?_eq, hnodes.resolve_eq, fun ha hb => ?_⟩
  · exact halike.render_eq (fun t t' ht => (huse t t' ht).lexeme) fun _ _ => Value.text_eq_of_beq
  · have hsame : a.Alike Token.SameUse Eq b :=
      halike.imp (fun t t' _ _ => huse t t') fun v v' hv hv' hequal =>
        Value.eq_of_beq hequal (ha v hv) (hb v' hv')
    have hshown : a.Alike Token.SameShown Eq b :=
      hsame.imp (fun _ _ _ _ ht => ht.sameShown) fun _ _ _ _ hv => hv
    have hdocument := hshown.toJson_eq
    exact ⟨congrArg Json.compact hdocument, congrArg Json.indented hdocument,
      Session.evaluate_eq_of_alike hsame⟩

/-- One divided by a zero: the zeros are equal, in a token as well as in a node, but not for the
division. -/
theorem equality_is_congruence_zeros :
    let divided (inToken divisor : Float) : Expr :=
      .binary (.literal (.number 1.0)) ⟨.slash, "/", some (.number inToken), 3⟩
        (.literal (.number divisor))
    (divided 0.0 0.0 == divided (-0.0) 0.0) = true
      ∧ (divided 0.0 0.0).jsonText = (divided (-0.0) 0.0).jsonText
      ∧ Session.empty.evaluate (divided 0.0 0.0) = Session.empty.evaluate (divided (-0.0) 0.0)
      ∧ (divided 0.0 0.0 == divided 0.0 (-0.0)) = true
      ∧ (divided 0.0 0.0).render = (divided 0.0 (-0.0)).render
      ∧ (Session.empty.evaluate (divided 0.0 0.0)).1 = .ok (.number (1.0 / 0.0))
      ∧ (Session.empty.evaluate (divided 0.0 (-0.0))).1 = .ok (.number (1.0 / -0.0))
      ∧ (1.0 / 0.0 == (1.0 / -0.0 : Float)) = false
      ∧ (divided Float.nan 1.0 == divided Float.nan 1.0) = false := by
  intro divided
  have hequal : (divided 0.0 0.0 == divided (-0.0) 0.0) = true := by decide +kernel
  have hequal' : (divided 0.0 0.0 == divided 0.0 (-0.0)) = true := by decide +kernel
  have hpositive : ∀ inToken, (divided inToken 0.0).LiteralsAre (· ≠ .number (-0.0)) := by
    intro inToken v hv
    have hvalue : v = .number 1.0 ∨ v = .number 0.0 := by
      simpa [divided, Expr.nodes] using hv
    rcases hvalue with rfl | rfl
    · rw [ne_eq, Value.number.injEq]
      decide +kernel
    · rw [ne_eq, Value.number.injEq]
      decide +kernel
  obtain ⟨_, _, _, hfirst⟩ := equality_is_congruence (divided 0.0 0.0) (divided (-0.0) 0.0) default
  obtain ⟨_, _, _, hsecond⟩ := equality_is_congruence (divided 0.0 0.0) (divided 0.0 (-0.0)) default
  obtain ⟨hjson, _, hevaluate⟩ := (hfirst hequal).2.2.2 (hpositive _) (hpositive _)
  obtain ⟨hrender, _⟩ := hsecond hequal'
  have hundefined : (divided Float.nan 1.0 == divided Float.nan 1.0) = false := by
    rw [Bool.eq_false_iff]
    intro hself
    obtain ⟨_, _, hdefined, _⟩ := equality_is_congruence (divided Float.nan 1.0) default default
    exact (hdefined.mp hself).1 _ (Expr.holds_own (List.mem_cons_self ..)) rfl
  exact ⟨hequal, hjson, hevaluate _, hequal', hrender, rfl, rfl, by decide +kernel, hundefined⟩

end Lox

import Lox.Proofs.Alike
import Lox.Proofs.Doubles
import Lox.Proofs.InTurn

/-!
# Expressions that a text denotes

Any tokens can stand in a tree, but those in the tree of a text do not: each has a kind that its
node has a meaning for, and its kind and its literal are what its lexeme denotes. So nothing but the
lexeme of a token, and its line, tells it from other tokens. `Expr.Written` says this of a whole
tree, node by node, and also which values its literals can have.
-/

namespace Lox

/-! ## Tokens that a lexeme denotes -/

/-- The kind and the literal of the token are those that its lexeme denotes. -/
def Token.Spelled (t : Token) : Prop :=
  ∃ form : Form, form.Matches t.lexeme.toList ∧ form.Denotes t.lexeme.toList t.kind t.literal

theorem Token.spelled_of_head {t : Token} {later : List Char}
    (h : Head.ofText (t.lexeme.toList ++ later) = .lexeme t.kind t.lexeme.toList t.literal) :
    t.Spelled := by
  have hdescribes := Head.ofText_describes (t.lexeme.toList ++ later)
  rw [h] at hdescribes
  obtain ⟨form, hform⟩ := hdescribes.1.isLexeme
  exact ⟨form, hform, hdescribes.2 form hform⟩

theorem Scan.ofCursor_spelled (c : Cursor) : ∀ t ∈ (ofCursor c).tokens, t.Spelled := by
  induction c using ofCursor_induction with
  | token c t c' hnext ht hscan ih =>
    rw [hscan]
    intro u hu
    rcases List.mem_cons.mp hu with rfl | hu
    · cases Cursor.reads_of_next hnext with
      | finished => exact absurd rfl ht
      | token _ _ _ _ hhead => exact Token.spelled_of_head hhead
    · exact ih u hu
  | _ =>
    rename_i hscan
    rw [hscan]
    intro t ht
    cases ht

/-- **The lexeme of a token decides its kind and its literal.** -/
theorem Token.Spelled.eq_of_lexeme {t t' : Token} (h : t.Spelled) (h' : t'.Spelled)
    (hlexeme : t.lexeme = t'.lexeme) : t.kind = t'.kind ∧ t.literal = t'.literal := by
  obtain ⟨form, hmatches, hdenotes⟩ := h
  obtain ⟨form', hmatches', hdenotes'⟩ := h'
  rw [← hlexeme] at hmatches' hdenotes'
  obtain rfl := hmatches.form_eq hmatches' (List.prefix_refl _) (List.prefix_refl _)
  cases form' with
  | operator =>
      have hone : ∀ o ∈ operators, ∀ o' ∈ operators, o.1 = o'.1 → o.2 = o'.2 := by decide
      exact ⟨hone _ hdenotes.1 _ hdenotes'.1 rfl, hdenotes.2.trans hdenotes'.2.symm⟩
  | string =>
      obtain ⟨hkind, inner, hinner, hliteral⟩ := hdenotes
      obtain ⟨hkind', inner', hinner', hliteral'⟩ := hdenotes'
      have hsame : inner = inner' :=
        List.append_cancel_right (List.cons.inj (hinner.symm.trans hinner')).2
      exact ⟨hkind.trans hkind'.symm, by rw [hliteral, hliteral', hsame]⟩
  | number =>
      obtain ⟨hkind, x, hx, hliteral⟩ := hdenotes
      obtain ⟨hkind', x', hx', hliteral'⟩ := hdenotes'
      rw [hx] at hx'
      cases hx'
      exact ⟨hkind.trans hkind'.symm, hliteral.trans hliteral'.symm⟩
  | word =>
      have hkind : t.kind = t'.kind := by
        have hkeyword := hdenotes.1.symm.trans hdenotes'.1
        by_cases hi : t.kind = .identifier
        · by_cases hi' : t'.kind = .identifier
          · exact hi.trans hi'.symm
          · rw [if_pos hi, if_neg hi'] at hkeyword
            cases hkeyword
        · by_cases hi' : t'.kind = .identifier
          · rw [if_neg hi, if_pos hi'] at hkeyword
            cases hkeyword
          · rw [if_neg hi, if_neg hi'] at hkeyword
            exact Option.some.inj hkeyword
      exact ⟨hkind, by rw [hdenotes.2, hdenotes'.2, hkind]⟩

/-- A token that does not stand for a value carries none. -/
theorem Token.Spelled.literal_eq_none {t : Token} (h : t.Spelled)
    (hkind : t.kind ∉ TokenKind.literals) : t.literal = none := by
  obtain ⟨form, _, hdenotes⟩ := h
  cases form with
  | operator => exact hdenotes.2
  | string => exact absurd (hdenotes.1 ▸ by decide) hkind
  | number => exact absurd (hdenotes.1 ▸ by decide) hkind
  | word =>
      rw [hdenotes.2]
      revert hkind
      cases t.kind <;> decide

/-- A token of one of these kinds, as its lexeme denotes it. -/
structure Token.IsOf (kinds : List TokenKind) (t : Token) : Prop where
  spelled : t.Spelled
  kind : t.kind ∈ kinds

/-! ## Trees of such tokens -/

namespace TokenKind

/-- The operators that stand between two operands and evaluate both. -/
def betweens : List TokenKind :=
  [.bangEqual, .equalEqual, .greater, .greaterEqual, .less, .lessEqual, .minus, .plus, .slash,
    .star]

/-- The operators that may leave their right operand unevaluated. -/
def choices : List TokenKind := [.orWord, .andWord]

end TokenKind

/-- A value that some lexeme denotes. -/
def Value.Written (v : Value) : Prop :=
  ∃ t : Token, t.IsOf TokenKind.literals ∧ t.literal = some v

/-- A tree with the tokens and values that a text can have there. -/
inductive Expr.Written : Expr → Prop where
  | assign {target operator : Token} {value : Expr} :
      target.IsOf [.identifier] → operator.IsOf [.equal] → Written value →
      Written (assign target operator value)
  | binary {left right : Expr} {operator : Token} :
      Written left → operator.IsOf TokenKind.betweens → Written right →
      Written (binary left operator right)
  | call {callee : Expr} {arguments : List Expr} :
      Written callee → (∀ a ∈ arguments, Written a) → Written (call callee arguments)
  | get {object : Expr} {name : Token} :
      Written object → name.IsOf [.identifier] → Written (get object name)
  | grouping {inner : Expr} : Written inner → Written (grouping inner)
  | literal {value : Value} : value.Written → Written (literal value)
  | logical {left right : Expr} {operator : Token} :
      Written left → operator.IsOf TokenKind.choices → Written right →
      Written (logical left operator right)
  | set {object value : Expr} {name : Token} :
      Written object → name.IsOf [.identifier] → Written value → Written (set object name value)
  | unary {operator : Token} {right : Expr} :
      operator.IsOf TokenKind.signs → Written right → Written (unary operator right)
  | var {name : Token} : name.IsOf [.identifier] → Written (var name)

theorem Expr.Written.part {e part : Expr} (h : e.Written) (hpart : part ∈ e.parts) :
    part.Written := by
  cases h with
  | assign _ _ hv => exact List.mem_singleton.mp hpart ▸ hv
  | binary hl _ hr =>
      rcases List.mem_pair.mp hpart with rfl | rfl
      · exact hl
      · exact hr
  | call hc has =>
      rcases List.mem_cons.mp hpart with rfl | hpart
      · exact hc
      · exact has part hpart
  | get ho _ => exact List.mem_singleton.mp hpart ▸ ho
  | grouping hi => exact List.mem_singleton.mp hpart ▸ hi
  | literal _ => cases hpart
  | logical hl _ hr =>
      rcases List.mem_pair.mp hpart with rfl | rfl
      · exact hl
      · exact hr
  | set ho _ hv =>
      rcases List.mem_pair.mp hpart with rfl | rfl
      · exact ho
      · exact hv
  | unary _ hr => exact List.mem_singleton.mp hpart ▸ hr
  | var _ => cases hpart

/-- Each node of a written tree is one, also the target of an assignment. -/
theorem Expr.Written.node {e node : Expr} (h : e.Written) (hnode : node ∈ e.nodes) :
    node.Written := by
  induction e using Expr.parts_induction with
  | step e ih =>
    rcases Expr.mem_nodes hnode with
      rfl | ⟨part, hpart, hnode⟩ | ⟨target, operator, value, rfl, rfl⟩
    · exact h
    · exact ih part hpart (h.part hpart) hnode
    · cases h with
      | assign htarget => exact .var htarget

/-- The tokens of a part are among those of the parts with their commas. -/
theorem Separated.mem {parts : List (List Token)} {ts : List Token} (h : Separated parts ts)
    {part : List Token} (hpart : part ∈ parts) {t : Token} (ht : t ∈ part) : t ∈ ts := by
  induction h with
  | none => cases hpart
  | one => rwa [List.mem_singleton.mp hpart] at ht
  | more _ _ ih =>
    rw [List.mem_append, List.mem_cons]
    rcases List.mem_cons.mp hpart with rfl | hpart
    · exact Or.inl ht
    · exact Or.inr (Or.inr (ih hpart))

/-- The operators of a rule are those that its node has a meaning for. -/
theorem Expr.Written.combine {rule : Rule} {left right : Expr} {operator : Token}
    (hl : left.Written) (ho : operator.IsOf rule.operators) (hr : right.Written) :
    (rule.combine left operator right).Written := by
  obtain ⟨hspelled, hkind⟩ := ho
  have hbetween : ∀ rule : Rule, rule ≠ .disjunction → rule ≠ .conjunction →
      ∀ kind ∈ rule.operators, kind ∈ TokenKind.betweens := by
    intro rule
    cases rule <;> decide
  cases rule with
  | disjunction => exact .logical hl ⟨hspelled, by rw [List.mem_singleton.mp hkind]; decide⟩ hr
  | conjunction => exact .logical hl ⟨hspelled, by rw [List.mem_singleton.mp hkind]; decide⟩ hr
  | _ => exact .binary hl ⟨hspelled, hbetween _ (by decide) (by decide) _ hkind⟩ hr

/-- **What is derived from tokens of a text is written**, by induction on the derivation. -/
theorem Derives.written {rule : Rule} {ts : List Token} {e : Expr} (h : Derives rule ts e)
    (hts : ∀ t ∈ ts, t.Spelled) : e.Written := by
  induction h with
  | tighter _ _ ih => exact ih hts
  | assign hname hequals _ ih =>
    rw [List.forall_mem_cons, List.forall_mem_cons] at hts
    obtain ⟨hn, he, hts⟩ := hts
    exact .assign ⟨hn, List.mem_singleton.mpr hname⟩ ⟨he, List.mem_singleton.mpr hequals⟩ (ih hts)
  | set _ _ hname _ _ ihobject ihvalue =>
    rw [List.forall_mem_append, List.forall_mem_cons, List.forall_mem_cons,
      List.forall_mem_cons] at hts
    obtain ⟨hos, _, hn, _, hvs⟩ := hts
    exact .set (ihobject hos) ⟨hn, List.mem_singleton.mpr hname⟩ (ihvalue hvs)
  | operation _ hoperator _ _ ihl ihr =>
    rw [List.forall_mem_append, List.forall_mem_cons] at hts
    obtain ⟨hls, ho, hrs⟩ := hts
    exact .combine (ihl hls) ⟨ho, hoperator⟩ (ihr hrs)
  | unary hoperator _ ih =>
    rw [List.forall_mem_cons] at hts
    exact .unary ⟨hts.1, hoperator⟩ (ih hts.2)
  | call _ _ _ hseparated _ ihcallee iharguments =>
    rw [List.forall_mem_append, List.forall_mem_cons, List.forall_mem_append] at hts
    obtain ⟨hcs, _, hts, _⟩ := hts
    refine .call (ihcallee hcs) fun a ha => ?_
    obtain ⟨argument, hargument, rfl⟩ := List.mem_map.mp ha
    exact iharguments argument hargument fun t ht =>
      hts t (hseparated.mem (List.mem_map_of_mem hargument) ht)
  | get _ _ hname ih =>
    rw [List.forall_mem_append, List.forall_mem_cons, List.forall_mem_singleton] at hts
    obtain ⟨hos, _, hn⟩ := hts
    exact .get (ih hos) ⟨hn, List.mem_singleton.mpr hname⟩
  | grouping _ _ _ ih =>
    rw [List.forall_mem_cons, List.forall_mem_append] at hts
    exact .grouping (ih hts.2.1)
  | literal hkind hliteral =>
    rw [List.forall_mem_singleton] at hts
    exact .literal ⟨_, ⟨hts, hkind⟩, hliteral⟩
  | var hname =>
    rw [List.forall_mem_singleton] at hts
    exact .var ⟨hts, List.mem_singleton.mpr hname⟩

/-- **The tree of a text is written.** -/
theorem parse_written {text : String} {e : Expr} (h : parse text = .ok e) : e.Written := by
  obtain ⟨tokens, line, hscan, hsentence⟩ := sentence_of_parse h
  have hspelled := Scan.ofCursor_spelled (Cursor.start text)
  change ∀ t ∈ (Scan.ofText text).tokens, t.Spelled at hspelled
  rw [hscan] at hspelled
  exact hsentence.derives.written hspelled

end Lox

import Lox.Expr.Json
import Lox.Proofs.Equality
import Lox.Proofs.JsonText
import Lox.Proofs.Written

/-!
# Documents of expressions

The document of an expression keeps its nodes, its values and of each token the lexeme and the line.
Expressions that are alike in these have one text, and others have two. Only a number that is not
finite is given by a text that a string could have too.

The document leaves out the kind and the literal of a token. In the tree of a text both are known
from the lexeme, and so for such trees the document is as good as the tree.
-/

namespace Lox

/-! ## What documents keep -/

/-- Tokens that a document does not tell apart. -/
structure Token.SameShown (t t' : Token) : Prop where
  lexeme : t.lexeme = t'.lexeme
  line : t.line = t'.line

/-- No number that is infinite or undefined. -/
def Value.Finite : Value → Prop
  | .number x => Number.isFinite x = true
  | _ => True

/-- All literals of an expression have values like this. -/
def Expr.LiteralsAre (Q : Value → Prop) (e : Expr) : Prop := ∀ v, .literal v ∈ e.nodes → Q v

theorem Expr.LiteralsAre.part {Q : Value → Prop} {e part : Expr} (h : e.LiteralsAre Q)
    (hpart : part ∈ e.parts) : part.LiteralsAre Q :=
  fun v hv => h v (Expr.nodes_part_subset hpart hv)

theorem Expr.LiteralsAre.literal {Q : Value → Prop} {v : Value} (h : (literal v).LiteralsAre Q) :
    Q v := h v (List.mem_singleton.mpr rfl)

theorem Token.toJson_inj {t t' : Token} : t.toJson = t'.toJson ↔ t.SameShown t' := by
  constructor
  · intro h
    simp only [Token.toJson, Json.object.injEq, List.cons.injEq, Prod.mk.injEq, Json.text.injEq,
      Json.natural.injEq, true_and, and_true] at h
    exact ⟨h.1, h.2⟩
  · rintro ⟨hlexeme, hline⟩
    rw [Token.toJson, Token.toJson, hlexeme, hline]

/-- The value that a document is of, if it is of one. -/
def Value.ofJson? : Json → Option Value
  | .null => some .nil
  | .boolean b => some (.boolean b)
  | .number x => some (.number x)
  | .text s => some (.string s)
  | _ => none

theorem Value.ofJson?_toJson {v : Value} (h : v.Finite) : ofJson? v.toJson = some v := by
  cases v with
  | number x => rw [toJson, if_pos (show Number.isFinite x = true from h), ofJson?]
  | _ => rfl

theorem Value.toJson_inj {v v' : Value} (h : v.Finite) (h' : v'.Finite) :
    v.toJson = v'.toJson ↔ v = v' := by
  refine ⟨fun heq => ?_, congrArg Value.toJson⟩
  have hread := ofJson?_toJson h
  rw [heq, ofJson?_toJson h'] at hread
  exact (Option.some.inj hread).symm

theorem Token.toJson_finite (t : Token) : t.toJson.Finite := by
  refine .object ?_
  rw [List.forall_mem_cons, List.forall_mem_cons]
  exact ⟨.text _, .natural _, nofun⟩

theorem Value.toJson_finite (v : Value) : v.toJson.Finite := by
  cases v with
  | nil => exact .null
  | boolean b =>
      cases b
      · exact .no
      · exact .yes
  | number x =>
      rw [toJson]
      split
      · rename_i hx
        exact .number hx
      · exact .text _
  | string s => exact .text s

namespace Expr

theorem toJsonList_eq_map (es : List Expr) : toJsonList es = es.map toJson := by
  induction es with
  | nil => rfl
  | cons e es ih => rw [toJsonList, ih, List.map_cons]

/-- The form that a document says it is of. -/
def formOf? : Json → Option Json
  | .object members => members.lookup "type"
  | _ => none

theorem formOf?_toJson (e : Expr) : formOf? e.toJson = some (.text e.form) := by
  cases e <;> simp [toJson, variableJson, formOf?, form, List.lookup]

/-- Documents that are the same are of nodes of one form. -/
theorem form_eq_of_toJson {e e' : Expr} (h : e.toJson = e'.toJson) : e.form = e'.form := by
  have hform := formOf?_toJson e
  rw [h, formOf?_toJson] at hform
  exact (Json.text.inj (Option.some.inj hform)).symm

/-- **Documents that are the same are of expressions that are alike**, by induction on
their parts. -/
theorem alike_of_toJson {e e' : Expr} (h : e.LiteralsAre Value.Finite)
    (h' : e'.LiteralsAre Value.Finite) (heq : e.toJson = e'.toJson) :
    e.Alike Token.SameShown Eq e' := by
  induction e using parts_induction generalizing e' with
  | step e ih =>
    -- parts in the same place have the same document
    have hpart : ∀ part ∈ e.parts, ∀ part' ∈ e'.parts, part.toJson = part'.toJson →
        part.Alike Token.SameShown Eq part' :=
      fun part hp part' hp' => ih part hp (h.part hp) (h'.part hp')
    have hform := form_eq_of_toJson heq
    cases e with
    | assign target operator value =>
        cases e' with
        | assign target' operator' value' =>
            simp only [toJson, variableJson, Json.object.injEq, List.cons.injEq, Prod.mk.injEq,
              true_and, and_true] at heq
            obtain ⟨ho, ht, hv⟩ := heq
            exact .assign (Token.toJson_inj.mp ht) (Token.toJson_inj.mp ho)
              (hpart value (by simp [parts]) value' (by simp [parts]) hv)
        | _ => simp [form] at hform
    | binary left operator right =>
        cases e' with
        | binary left' operator' right' =>
            simp only [toJson, Json.object.injEq, List.cons.injEq, Prod.mk.injEq, true_and,
              and_true] at heq
            obtain ⟨hl, ho, hr⟩ := heq
            exact .binary (hpart left (by simp [parts]) left' (by simp [parts]) hl)
              (Token.toJson_inj.mp ho) (hpart right (by simp [parts]) right' (by simp [parts]) hr)
        | _ => simp [form] at hform
    | call callee arguments =>
        cases e' with
        | call callee' arguments' =>
            simp only [toJson, Json.object.injEq, List.cons.injEq, Prod.mk.injEq, true_and,
              and_true, Json.list.injEq] at heq
            obtain ⟨has, hc⟩ := heq
            rw [toJsonList_eq_map, toJsonList_eq_map] at has
            exact .call (hpart callee (by simp [parts]) callee' (by simp [parts]) hc)
              (alikeList_of_map_eq has fun a ha a' ha' =>
                hpart a (List.mem_cons_of_mem _ ha) a' (List.mem_cons_of_mem _ ha'))
        | _ => simp [form] at hform
    | get object name =>
        cases e' with
        | get object' name' =>
            simp only [toJson, Json.object.injEq, List.cons.injEq, Prod.mk.injEq, true_and,
              and_true] at heq
            obtain ⟨hn, ho⟩ := heq
            exact .get (hpart object (by simp [parts]) object' (by simp [parts]) ho)
              (Token.toJson_inj.mp hn)
        | _ => simp [form] at hform
    | grouping inner =>
        cases e' with
        | grouping inner' =>
            simp only [toJson, Json.object.injEq, List.cons.injEq, Prod.mk.injEq, true_and,
              and_true] at heq
            exact .grouping (hpart inner (by simp [parts]) inner' (by simp [parts]) heq)
        | _ => simp [form] at hform
    | literal value =>
        cases e' with
        | literal value' =>
            simp only [toJson, Json.object.injEq, List.cons.injEq, Prod.mk.injEq, true_and,
              and_true] at heq
            exact .literal ((Value.toJson_inj h.literal h'.literal).mp heq)
        | _ => simp [form] at hform
    | logical left operator right =>
        cases e' with
        | logical left' operator' right' =>
            simp only [toJson, Json.object.injEq, List.cons.injEq, Prod.mk.injEq, true_and,
              and_true] at heq
            obtain ⟨hl, ho, hr⟩ := heq
            exact .logical (hpart left (by simp [parts]) left' (by simp [parts]) hl)
              (Token.toJson_inj.mp ho) (hpart right (by simp [parts]) right' (by simp [parts]) hr)
        | _ => simp [form] at hform
    | set object name value =>
        cases e' with
        | set object' name' value' =>
            simp only [toJson, Json.object.injEq, List.cons.injEq, Prod.mk.injEq, true_and,
              and_true] at heq
            obtain ⟨hn, ho, hv⟩ := heq
            exact .set (hpart object (by simp [parts]) object' (by simp [parts]) ho)
              (Token.toJson_inj.mp hn) (hpart value (by simp [parts]) value' (by simp [parts]) hv)
        | _ => simp [form] at hform
    | unary operator right =>
        cases e' with
        | unary operator' right' =>
            simp only [toJson, Json.object.injEq, List.cons.injEq, Prod.mk.injEq, true_and,
              and_true] at heq
            obtain ⟨ho, hr⟩ := heq
            exact .unary (Token.toJson_inj.mp ho)
              (hpart right (by simp [parts]) right' (by simp [parts]) hr)
        | _ => simp [form] at hform
    | var name =>
        cases e' with
        | var name' =>
            simp only [toJson, variableJson, Json.object.injEq, List.cons.injEq, Prod.mk.injEq,
              true_and, and_true] at heq
            exact .var (Token.toJson_inj.mp heq)
        | _ => simp [form] at hform

mutual

/-- Expressions that are alike have one document. -/
theorem Alike.toJson_eq : ∀ {e e' : Expr}, e.Alike Token.SameShown Eq e' → e.toJson = e'.toJson
  | _, _, .assign ht ho hv => by
      rw [toJson, toJson, variableJson, variableJson, Token.toJson_inj.mpr ht,
        Token.toJson_inj.mpr ho, hv.toJson_eq]
  | _, _, .binary hl ho hr => by
      rw [toJson, toJson, Token.toJson_inj.mpr ho, hl.toJson_eq, hr.toJson_eq]
  | _, _, .call hc has => by rw [toJson, toJson, hc.toJson_eq, has.toJsonList_eq]
  | _, _, .get he hn => by rw [toJson, toJson, Token.toJson_inj.mpr hn, he.toJson_eq]
  | _, _, .grouping he => by rw [toJson, toJson, he.toJson_eq]
  | _, _, .literal hv => by rw [hv]
  | _, _, .logical hl ho hr => by
      rw [toJson, toJson, Token.toJson_inj.mpr ho, hl.toJson_eq, hr.toJson_eq]
  | _, _, .set he hn hv => by
      rw [toJson, toJson, Token.toJson_inj.mpr hn, he.toJson_eq, hv.toJson_eq]
  | _, _, .unary ho hr => by rw [toJson, toJson, Token.toJson_inj.mpr ho, hr.toJson_eq]
  | _, _, .var hn => by
      rw [toJson, toJson, variableJson, variableJson, Token.toJson_inj.mpr hn]

theorem AlikeList.toJsonList_eq : ∀ {es es' : List Expr},
    AlikeList Token.SameShown Eq es es' → toJsonList es = toJsonList es'
  | _, _, .nil => rfl
  | _, _, .cons he hes => by rw [toJsonList, toJsonList, he.toJson_eq, hes.toJsonList_eq]

end

/-! ## Texts -/

/-- The numbers in a document are finite, whatever the numbers in the expression are. -/
theorem toJson_finite (e : Expr) : e.toJson.Finite := by
  have hvariable : ∀ t : Token, (variableJson t).Finite := by
    intro t
    refine .object ?_
    rw [List.forall_mem_cons, List.forall_mem_cons]
    exact ⟨t.toJson_finite, .text _, nofun⟩
  induction e using parts_induction with
  | step e ih =>
    cases e with
    | assign target operator value =>
        refine .object ?_
        simp only [List.forall_mem_cons]
        exact ⟨operator.toJson_finite, hvariable target, .text _, ih value (by simp [parts]), nofun⟩
    | binary left operator right =>
        refine .object ?_
        simp only [List.forall_mem_cons]
        exact ⟨ih left (by simp [parts]), operator.toJson_finite, ih right (by simp [parts]),
          .text _, nofun⟩
    | call callee arguments =>
        refine .object ?_
        simp only [List.forall_mem_cons]
        refine ⟨.list ?_, ih callee (by simp [parts]), .text _, nofun⟩
        rw [toJsonList_eq_map]
        intro item hitem
        obtain ⟨a, ha, rfl⟩ := List.mem_map.mp hitem
        exact ih a (List.mem_cons_of_mem _ ha)
    | get object name =>
        refine .object ?_
        simp only [List.forall_mem_cons]
        exact ⟨name.toJson_finite, ih object (by simp [parts]), .text _, nofun⟩
    | grouping inner =>
        refine .object ?_
        simp only [List.forall_mem_cons]
        exact ⟨ih inner (by simp [parts]), .text _, nofun⟩
    | literal value =>
        refine .object ?_
        simp only [List.forall_mem_cons]
        exact ⟨.text _, value.toJson_finite, nofun⟩
    | logical left operator right =>
        refine .object ?_
        simp only [List.forall_mem_cons]
        exact ⟨ih left (by simp [parts]), operator.toJson_finite, ih right (by simp [parts]),
          .text _, nofun⟩
    | set object name value =>
        refine .object ?_
        simp only [List.forall_mem_cons]
        exact ⟨name.toJson_finite, ih object (by simp [parts]), .text _,
          ih value (by simp [parts]), nofun⟩
    | unary operator right =>
        refine .object ?_
        simp only [List.forall_mem_cons]
        exact ⟨operator.toJson_finite, ih right (by simp [parts]), .text _, nofun⟩
    | var name => exact hvariable name

/-- Expressions with finite numbers have one text, in either layout, if and only if they are
alike. -/
theorem text_eq_iff {a b : Expr} (ha : a.LiteralsAre Value.Finite)
    (hb : b.LiteralsAre Value.Finite) :
    (a.jsonText = b.jsonText ↔ a.Alike Token.SameShown Eq b)
      ∧ (a.indentedJsonText = b.indentedJsonText ↔ a.Alike Token.SameShown Eq b) := by
  refine ⟨⟨fun h => ?_, fun h => congrArg Json.compact h.toJson_eq⟩,
    ⟨fun h => ?_, fun h => congrArg Json.indented h.toJson_eq⟩⟩
  · exact alike_of_toJson ha hb (Json.compact_injective a.toJson_finite b.toJson_finite h)
  · exact alike_of_toJson ha hb (Json.indented_injective a.toJson_finite b.toJson_finite h)

end Expr

/-! ## Equality of trees that are written -/

theorem Token.SameUse.sameShown {t t' : Token} (h : t.SameUse t') : t.SameShown t' :=
  ⟨h.lexeme, h.line⟩

/-- Tokens that stand for no value are equal if a document shows them as the same. -/
theorem Token.Spelled.beq_of_sameShown {t t' : Token} (h : t.Spelled) (h' : t'.Spelled)
    (hnone : t.literal = none) (hsame : t.SameShown t') : (t == t') = true := by
  obtain ⟨hkind, hliteral⟩ := h.eq_of_lexeme h' hsame.lexeme
  rw [Token.beq_iff, ← hliteral, hnone]
  exact ⟨⟨hkind, hsame.lexeme, hsame.line⟩, rfl⟩

/-- A number that a lexeme denotes has no minus sign. -/
theorem Value.Written.not_negative {x : Float} (h : (number x).Written) :
    Number.isNegative x = false := by
  obtain ⟨t, ⟨⟨form, _, hdenotes⟩, hkind⟩, hliteral⟩ := h
  cases form with
  | operator =>
      rw [hdenotes.2] at hliteral
      cases hliteral
  | string =>
      obtain ⟨_, inner, _, hstring⟩ := hdenotes
      rw [hstring] at hliteral
      cases hliteral
  | number =>
      obtain ⟨_, y, hread, hnumber⟩ := hdenotes
      rw [hnumber] at hliteral
      cases hliteral
      unfold Number.read? at hread
      dsimp only at hread
      split at hread
      · cases hread
        exact Number.isNegative_ofDigits _ _
      · cases hread
  | word =>
      rw [hdenotes.2] at hliteral
      revert hliteral
      cases t.kind <;> simp [TokenKind.wordValue?]

/-- Finite values that lexemes denote are equal only if they are the same. -/
theorem Value.Written.beq_iff {v v' : Value} (h : v.Written) (h' : v'.Written)
    (hfinite : v.Finite) : (v == v') = true ↔ v = v' := by
  have hpositive : ∀ {v : Value}, v.Written → v ≠ .number (-0.0) := by
    intro v hv hzero
    rw [hzero] at hv
    exact absurd hv.not_negative (by decide +kernel)
  constructor
  · intro heq
    exact Value.eq_of_beq heq (hpositive h) (hpositive h')
  · intro heq
    rw [← heq, Value.beq_self_iff]
    intro hnan
    rw [hnan] at hfinite
    exact Number.ne_nan_of_isFinite hfinite rfl

/-- The tokens of a node stand for no value. -/
theorem TokenKind.node_kinds :
    (∀ kind ∈ [identifier], kind ∉ literals) ∧ (∀ kind ∈ [equal], kind ∉ literals)
      ∧ (∀ kind ∈ betweens, kind ∉ literals) ∧ (∀ kind ∈ choices, kind ∉ literals)
      ∧ ∀ kind ∈ signs, kind ∉ literals := by decide

namespace Expr

/-- In the tree of a text, the tokens are spelled as they should be and stand for no value. -/
theorem Written.ownTokens {e : Expr} (h : e.Written) :
    ∀ t ∈ e.ownTokens, t.Spelled ∧ t.literal = none := by
  have hplain : ∀ {kinds : List TokenKind} {t : Token}, t.IsOf kinds →
      (∀ kind ∈ kinds, kind ∉ TokenKind.literals) → t.Spelled ∧ t.literal = none :=
    fun ht hnone => ⟨ht.spelled, ht.spelled.literal_eq_none (hnone _ ht.kind)⟩
  obtain ⟨hnames, hequals, hbetweens, hchoices, hsigns⟩ := TokenKind.node_kinds
  cases h with
  | assign ht ho _ =>
      rw [Expr.ownTokens, List.forall_mem_cons, List.forall_mem_singleton]
      exact ⟨hplain ht hnames, hplain ho hequals⟩
  | binary _ ho _ => exact List.forall_mem_singleton.mpr (hplain ho hbetweens)
  | get _ hn => exact List.forall_mem_singleton.mpr (hplain hn hnames)
  | logical _ ho _ => exact List.forall_mem_singleton.mpr (hplain ho hchoices)
  | set _ hn _ => exact List.forall_mem_singleton.mpr (hplain hn hnames)
  | unary ho _ => exact List.forall_mem_singleton.mpr (hplain ho hsigns)
  | var hn => exact List.forall_mem_singleton.mpr (hplain hn hnames)
  | _ => exact List.forall_mem_nil _

theorem Written.token {e : Expr} (h : e.Written) {t : Token} (ht : e.Holds t) :
    t.Spelled ∧ t.literal = none := by
  obtain ⟨node, hnode, ht⟩ := ht
  exact (h.node hnode).ownTokens t ht

theorem Written.value {e : Expr} (h : e.Written) {v : Value} (hv : .literal v ∈ e.nodes) :
    v.Written := by
  cases h.node hv with
  | literal hv => exact hv

/-- **Trees that are written are equal if and only if they are alike.** -/
theorem Written.beq_iff {a b : Expr} (ha : a.Written) (hb : b.Written)
    (hfinite : a.LiteralsAre Value.Finite) :
    (a == b) = true ↔ a.Alike Token.SameShown Eq b := by
  have hvalue : ∀ v v' : Value, .literal v ∈ a.nodes → .literal v' ∈ b.nodes →
      ((v == v') = true ↔ v = v') := fun v v' hv hv' =>
    (ha.value hv).beq_iff (hb.value hv') (hfinite v hv)
  rw [beq_iff_alike]
  constructor
  · intro h
    exact h.imp (fun t t' _ _ hsame => (Token.beq_iff.mp hsame).1.sameShown)
      fun v v' hv hv' => (hvalue v v' hv hv').mp
  · intro h
    refine h.imp (fun t t' ht ht' hsame => ?_) fun v v' hv hv' => (hvalue v v' hv hv').mpr
    obtain ⟨hspelled, hnone⟩ := ha.token ht
    exact hspelled.beq_of_sameShown (hb.token ht').1 hnone hsame

end Expr

/--
**The text of a document is as good as the expression.**

Two expressions, whether a text denotes them or not, have finite numbers only. Then their
documents have the same text, on one line as well as on many, if and only if the expressions have
the same nodes in the same places, with as many arguments in each call, tokens with the same
lexemes on the same lines and the same values; and of a number that is the same every bit is, so
that the two zeros differ.

If the expressions are the trees of two texts, then that is so if and only if they are equal,
although a document keeps neither the kinds nor the literals of tokens, and equality takes the two
zeros for one.
-/
theorem json_text_is_faithful {a b : Expr} (ha : a.LiteralsAre Value.Finite)
    (hb : b.LiteralsAre Value.Finite) :
    ((a.jsonText = b.jsonText ↔ a.Alike Token.SameShown Eq b)
        ∧ (a.indentedJsonText = b.indentedJsonText ↔ a.Alike Token.SameShown Eq b))
      ∧ ∀ text text', parse text = .ok a → parse text' = .ok b →
        (a.jsonText = b.jsonText ↔ (a == b) = true)
          ∧ (a.indentedJsonText = b.indentedJsonText ↔ (a == b) = true) := by
  obtain ⟨hcompact, hindented⟩ := Expr.text_eq_iff ha hb
  refine ⟨⟨hcompact, hindented⟩, fun text text' hparse hparse' => ?_⟩
  have hbeq := (parse_written hparse).beq_iff (parse_written hparse') ha
  exact ⟨hcompact.trans hbeq.symm, hindented.trans hbeq.symm⟩

/-- The two zeros, which are equal, and the tree of a call whose argument stands on one line or on
another. -/
theorem json_text_is_faithful_zeros :
    let zero : Expr := .literal (.number 0.0)
    let minusZero : Expr := .literal (.number (-0.0))
    let name (lexeme : String) (line : Nat) : Token := ⟨.identifier, lexeme, none, line⟩
    let e : Expr := .call (.var (name "f" 1)) [.var (name "x" 1)]
    let e' : Expr := .call (.var (name "f" 1)) [.var (name "x" 2)]
    (zero == minusZero) = true ∧ zero.jsonText ≠ minusZero.jsonText
      ∧ parse "f(x)" = .ok e ∧ parse "f(\nx)" = .ok e' ∧ e.jsonText ≠ e'.jsonText := by
  intro zero minusZero name e e'
  have hequal : (zero == minusZero) = true := by
    show (0.0 == (-0.0 : Float)) = true
    decide +kernel
  have hzero : zero.LiteralsAre Value.Finite := by
    intro v hv
    cases List.mem_singleton.mp hv
    show Number.isFinite 0.0 = true
    decide +kernel
  have hminus : minusZero.LiteralsAre Value.Finite := by
    intro v hv
    cases List.mem_singleton.mp hv
    show Number.isFinite (-0.0) = true
    decide +kernel
  have hscan : Scan.ofText "f(x)" = ⟨[name "f" 1, ⟨.leftParen, "(", none, 1⟩, name "x" 1,
      ⟨.rightParen, ")", none, 1⟩], .finished 1⟩ := rfl
  have hscan' : Scan.ofText "f(\nx)" = ⟨[name "f" 1, ⟨.leftParen, "(", none, 1⟩, name "x" 2,
      ⟨.rightParen, ")", none, 2⟩], .finished 2⟩ := rfl
  have hparse : parse "f(x)" = .ok e := parse_of_scan hscan rfl
  have hparse' : parse "f(\nx)" = .ok e' := parse_of_scan hscan' rfl
  have he : e.LiteralsAre Value.Finite := by
    intro v hv
    simp [e, Expr.nodes, Expr.nodesOfList] at hv
  have he' : e'.LiteralsAre Value.Finite := by
    intro v hv
    simp [e', Expr.nodes, Expr.nodesOfList] at hv
  refine ⟨hequal, fun htext => ?_, hparse, hparse', fun htext => ?_⟩
  · have hv := Expr.alike_literal.mp ((json_text_is_faithful hzero hminus).1.1.mp htext)
    have hsign := congrArg Number.isNegative (Value.number.inj hv)
    exact absurd hsign (by decide +kernel)
  · have hsame := ((json_text_is_faithful he he').2 _ _ hparse hparse').1.mp htext
    exact absurd hsame (by decide +kernel)

end Lox

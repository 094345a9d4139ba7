import Mathlib.Data.List.Forall2
import Lox.Expr.Render

/-!
# Expressions that are alike

Two expressions can be the same but for something: but for the lines of their tokens, say, or but
for the way in which their numbers were written. `Expr.Alike T V` is what all of these have in
common. The nodes are the same and stand in the same places; the tokens that stand in one place are
related by `T`, and the literal values by `V`.
-/

namespace Lox.Expr

mutual

/-- The same nodes in the same places, with tokens related by `T` and literal values by `V`. -/
inductive Alike (T : Token → Token → Prop) (V : Value → Value → Prop) : Expr → Expr → Prop where
  | assign {t t' o o' : Token} {v v' : Expr} :
      T t t' → T o o' → Alike T V v v' → Alike T V (assign t o v) (assign t' o' v')
  | binary {l l' r r' : Expr} {o o' : Token} :
      Alike T V l l' → T o o' → Alike T V r r' → Alike T V (binary l o r) (binary l' o' r')
  | call {c c' : Expr} {as as' : List Expr} :
      Alike T V c c' → AlikeList T V as as' → Alike T V (call c as) (call c' as')
  | get {e e' : Expr} {n n' : Token} :
      Alike T V e e' → T n n' → Alike T V (get e n) (get e' n')
  | grouping {e e' : Expr} :
      Alike T V e e' → Alike T V (grouping e) (grouping e')
  | literal {v v' : Value} :
      V v v' → Alike T V (literal v) (literal v')
  | logical {l l' r r' : Expr} {o o' : Token} :
      Alike T V l l' → T o o' → Alike T V r r' → Alike T V (logical l o r) (logical l' o' r')
  | set {e e' v v' : Expr} {n n' : Token} :
      Alike T V e e' → T n n' → Alike T V v v' → Alike T V (set e n v) (set e' n' v')
  | unary {o o' : Token} {r r' : Expr} :
      T o o' → Alike T V r r' → Alike T V (unary o r) (unary o' r')
  | var {n n' : Token} :
      T n n' → Alike T V (var n) (var n')

/-- As many expressions in both lists, and they are alike one by one. -/
inductive AlikeList (T : Token → Token → Prop) (V : Value → Value → Prop) :
    List Expr → List Expr → Prop where
  | nil : AlikeList T V [] []
  | cons {e e' : Expr} {es es' : List Expr} :
      Alike T V e e' → AlikeList T V es es' → AlikeList T V (e :: es) (e' :: es')

end

variable {T : Token → Token → Prop} {V : Value → Value → Prop}

mutual

/-- Tokens with the same characters and values with the same text make the same text. -/
theorem Alike.render_eq (hT : ∀ t t', T t t' → t.lexeme = t'.lexeme)
    (hV : ∀ v v', V v v' → v.text = v'.text) :
    ∀ {e e' : Expr}, Alike T V e e' → e.render = e'.render
  | _, _, .assign ht _ hv => by rw [render, render, hT _ _ ht, hv.render_eq hT hV]
  | _, _, .binary hl ho hr => by
      rw [render, render, hT _ _ ho, hl.render_eq hT hV, hr.render_eq hT hV]
  | _, _, .call hc has => by rw [render, render, hc.render_eq hT hV, has.render_eq hT hV]
  | _, _, .get he hn => by rw [render, render, hT _ _ hn, he.render_eq hT hV]
  | _, _, .grouping he => by rw [render, render, he.render_eq hT hV]
  | _, _, .literal hv => hV _ _ hv
  | _, _, .logical hl ho hr => by
      rw [render, render, hT _ _ ho, hl.render_eq hT hV, hr.render_eq hT hV]
  | _, _, .set he hn hv => by
      rw [render, render, hT _ _ hn, he.render_eq hT hV, hv.render_eq hT hV]
  | _, _, .unary ho hr => by rw [render, render, hT _ _ ho, hr.render_eq hT hV]
  | _, _, .var hn => hT _ _ hn

theorem AlikeList.render_eq (hT : ∀ t t', T t t' → t.lexeme = t'.lexeme)
    (hV : ∀ v v', V v v' → v.text = v'.text) :
    ∀ {es es' : List Expr}, AlikeList T V es es' → renderList es = renderList es'
  | _, _, .nil => rfl
  | _, _, .cons he hes => by
      rw [renderList, renderList, he.render_eq hT hV, hes.render_eq hT hV]

end

/-! ## Alike part by part -/

/-- Members that correspond may be related in another way, which may need that they are members. -/
theorem forall₂_imp_of_mem {α β : Type} {R S : α → β → Prop} {as : List α} {bs : List β}
    (h : List.Forall₂ R as bs) (himp : ∀ a ∈ as, ∀ b ∈ bs, R a b → S a b) :
    List.Forall₂ S as bs := by
  obtain ⟨hlength, hall⟩ := List.forall₂_iff_zip.mp h
  refine List.forall₂_iff_zip.mpr ⟨hlength, fun hzip => ?_⟩
  obtain ⟨ha, hb⟩ := List.of_mem_zip hzip
  exact himp _ ha _ hb (hall hzip)

section Parts

variable {t t' o o' n n' : Token} {v v' l l' r r' e e' c c' : Expr} {as as' es es' : List Expr}

theorem alikeList_iff : AlikeList T V es es' ↔ List.Forall₂ (Alike T V) es es' := by
  constructor
  · intro h
    induction es generalizing es' with
    | nil =>
      cases h
      exact .nil
    | cons e es ih =>
      cases h with
      | cons he hes => exact .cons he (ih hes)
  · intro h
    induction h with
    | nil => exact .nil
    | cons he _ ih => exact .cons he ih

/-- Lists with the same images are alike if members with the same image are. -/
theorem alikeList_of_map_eq {α : Type} {f : Expr → α} (heq : es.map f = es'.map f)
    (h : ∀ e ∈ es, ∀ e' ∈ es', f e = f e' → Alike T V e e') : AlikeList T V es es' := by
  rw [← List.forall₂_eq_eq_eq, List.forall₂_map_left_iff, List.forall₂_map_right_iff] at heq
  exact alikeList_iff.mpr (forall₂_imp_of_mem heq h)

theorem alike_assign :
    Alike T V (assign t o v) (assign t' o' v') ↔ T t t' ∧ T o o' ∧ Alike T V v v' :=
  ⟨fun h => by cases h with | assign ht ho hv => exact ⟨ht, ho, hv⟩,
    fun ⟨ht, ho, hv⟩ => .assign ht ho hv⟩

theorem alike_binary :
    Alike T V (binary l o r) (binary l' o' r') ↔ Alike T V l l' ∧ T o o' ∧ Alike T V r r' :=
  ⟨fun h => by cases h with | binary hl ho hr => exact ⟨hl, ho, hr⟩,
    fun ⟨hl, ho, hr⟩ => .binary hl ho hr⟩

theorem alike_call : Alike T V (call c as) (call c' as') ↔ Alike T V c c' ∧ AlikeList T V as as' :=
  ⟨fun h => by cases h with | call hc has => exact ⟨hc, has⟩, fun ⟨hc, has⟩ => .call hc has⟩

theorem alike_get : Alike T V (get e n) (get e' n') ↔ Alike T V e e' ∧ T n n' :=
  ⟨fun h => by cases h with | get he hn => exact ⟨he, hn⟩, fun ⟨he, hn⟩ => .get he hn⟩

theorem alike_grouping : Alike T V (grouping e) (grouping e') ↔ Alike T V e e' :=
  ⟨fun h => by cases h with | grouping he => exact he, .grouping⟩

theorem alike_literal {v v' : Value} : Alike T V (literal v) (literal v') ↔ V v v' :=
  ⟨fun h => by cases h with | literal hv => exact hv, .literal⟩

theorem alike_logical :
    Alike T V (logical l o r) (logical l' o' r') ↔ Alike T V l l' ∧ T o o' ∧ Alike T V r r' :=
  ⟨fun h => by cases h with | logical hl ho hr => exact ⟨hl, ho, hr⟩,
    fun ⟨hl, ho, hr⟩ => .logical hl ho hr⟩

theorem alike_set :
    Alike T V (set e n v) (set e' n' v') ↔ Alike T V e e' ∧ T n n' ∧ Alike T V v v' :=
  ⟨fun h => by cases h with | set he hn hv => exact ⟨he, hn, hv⟩,
    fun ⟨he, hn, hv⟩ => .set he hn hv⟩

theorem alike_unary : Alike T V (unary o r) (unary o' r') ↔ T o o' ∧ Alike T V r r' :=
  ⟨fun h => by cases h with | unary ho hr => exact ⟨ho, hr⟩, fun ⟨ho, hr⟩ => .unary ho hr⟩

theorem alike_var : Alike T V (var n) (var n') ↔ T n n' :=
  ⟨fun h => by cases h with | var hn => exact hn, .var⟩

end Parts

/-! ## Parts and nodes -/

/-- The expressions that a node is made of. -/
def parts : Expr → List Expr
  | assign _ _ value => [value]
  | binary left _ right => [left, right]
  | call callee arguments => callee :: arguments
  | get object _ => [object]
  | grouping inner => [inner]
  | literal _ => []
  | logical left _ right => [left, right]
  | set object _ value => [object, value]
  | unary _ right => [right]
  | var _ => []

theorem sizeOf_part {e part : Expr} (h : part ∈ e.parts) : sizeOf part < sizeOf e := by
  cases e with
  | call callee arguments =>
      rcases List.mem_cons.mp h with rfl | h
      · simp
        omega
      · have hless := List.sizeOf_lt_of_mem h
        simp
        omega
  | literal => cases h
  | var => cases h
  | _ =>
      simp [parts] at h
      grind

/-- **What holds of an expression because it holds of its parts holds of every expression.** -/
theorem parts_induction {motive : Expr → Prop}
    (step : ∀ e, (∀ part ∈ e.parts, motive part) → motive e) (e : Expr) : motive e :=
  step e fun part hpart =>
    have := sizeOf_part hpart
    parts_induction step part
termination_by sizeOf e

theorem nodesOfList_subset {es : List Expr} {e : Expr} (h : e ∈ es) : e.nodes ⊆ nodesOfList es := by
  induction es with
  | nil => cases h
  | cons e' es ih =>
    rw [nodesOfList]
    rcases List.mem_cons.mp h with rfl | h
    · exact List.subset_append_left _ _
    · exact List.subset_append_of_subset_right _ (ih h)

/-- The nodes of a part are nodes of the whole. -/
theorem nodes_part_subset {e part : Expr} (h : part ∈ e.parts) : part.nodes ⊆ e.nodes := by
  have htwo : ∀ {left right : Expr}, part ∈ [left, right] →
      part.nodes ⊆ left.nodes ++ right.nodes := by
    intro left right h
    rcases List.mem_pair.mp h with rfl | rfl
    · exact List.subset_append_left _ _
    · exact List.subset_append_right _ _
  cases e with
  | assign target operator value =>
      rw [nodes, List.mem_singleton.mp h]
      exact List.subset_cons_of_subset _ (List.subset_cons_self _ _)
  | binary left operator right =>
      rw [nodes]
      exact List.subset_cons_of_subset _ (htwo h)
  | call callee arguments =>
      rw [nodes]
      refine List.subset_cons_of_subset _ ?_
      rcases List.mem_cons.mp h with rfl | h
      · exact List.subset_append_left _ _
      · exact List.subset_append_of_subset_right _ (nodesOfList_subset h)
  | get object name =>
      rw [nodes, List.mem_singleton.mp h]
      exact List.subset_cons_self _ _
  | grouping inner =>
      rw [nodes, List.mem_singleton.mp h]
      exact List.subset_cons_self _ _
  | literal value => cases h
  | logical left operator right =>
      rw [nodes]
      exact List.subset_cons_of_subset _ (htwo h)
  | set object name value =>
      rw [nodes]
      exact List.subset_cons_of_subset _ (htwo h)
  | unary operator right =>
      rw [nodes, List.mem_singleton.mp h]
      exact List.subset_cons_self _ _
  | var name => cases h

theorem exists_of_mem_nodesOfList {es : List Expr} {node : Expr} (h : node ∈ nodesOfList es) :
    ∃ e ∈ es, node ∈ e.nodes := by
  induction es with
  | nil => cases h
  | cons e es ih =>
    rw [nodesOfList] at h
    rcases List.mem_append.mp h with h | h
    · exact ⟨e, List.mem_cons_self .., h⟩
    · obtain ⟨e', he', hnode⟩ := ih h
      exact ⟨e', List.mem_cons_of_mem _ he', hnode⟩

/-- A node is the whole, or one of a part, or the target of an assignment. -/
theorem mem_nodes {e node : Expr} (h : node ∈ e.nodes) :
    node = e ∨ (∃ part ∈ e.parts, node ∈ part.nodes)
      ∨ ∃ target operator value, e = assign target operator value ∧ node = var target := by
  cases e with
  | assign target operator value =>
      rw [nodes, List.mem_cons, List.mem_cons] at h
      rcases h with h | h | h
      · exact Or.inl h
      · exact Or.inr (Or.inr ⟨_, _, _, rfl, h⟩)
      · exact Or.inr (Or.inl ⟨value, List.mem_singleton.mpr rfl, h⟩)
  | call callee arguments =>
      rw [nodes, List.mem_cons, List.mem_append] at h
      rcases h with h | h | h
      · exact Or.inl h
      · exact Or.inr (Or.inl ⟨callee, List.mem_cons_self .., h⟩)
      · obtain ⟨argument, hargument, h⟩ := exists_of_mem_nodesOfList h
        exact Or.inr (Or.inl ⟨argument, List.mem_cons_of_mem _ hargument, h⟩)
  | literal value => exact Or.inl (List.mem_singleton.mp h)
  | var name => exact Or.inl (List.mem_singleton.mp h)
  | _ =>
      rw [nodes] at h
      simp only [List.mem_cons, List.mem_append] at h
      simp only [parts, List.mem_cons, List.not_mem_nil, or_false, exists_eq_or_imp, exists_eq_left]
      exact h.imp_right Or.inl

mutual

/-- The nodes of two expressions that are alike are alike one by one. -/
theorem Alike.nodes : ∀ {e e' : Expr}, Alike T V e e' → List.Forall₂ (Alike T V) e.nodes e'.nodes
  | _, _, .assign ht ho hv => by
      rw [Expr.nodes, Expr.nodes]
      exact .cons (.assign ht ho hv) (.cons (.var ht) hv.nodes)
  | _, _, .binary hl ho hr => by
      rw [Expr.nodes, Expr.nodes]
      exact .cons (.binary hl ho hr) (List.rel_append hl.nodes hr.nodes)
  | _, _, .call hc has => by
      rw [Expr.nodes, Expr.nodes]
      exact .cons (.call hc has) (List.rel_append hc.nodes has.nodes)
  | _, _, .get he hn => by
      rw [Expr.nodes, Expr.nodes]
      exact .cons (.get he hn) he.nodes
  | _, _, .grouping he => by
      rw [Expr.nodes, Expr.nodes]
      exact .cons (.grouping he) he.nodes
  | _, _, .literal hv => .cons (.literal hv) .nil
  | _, _, .logical hl ho hr => by
      rw [Expr.nodes, Expr.nodes]
      exact .cons (.logical hl ho hr) (List.rel_append hl.nodes hr.nodes)
  | _, _, .set he hn hv => by
      rw [Expr.nodes, Expr.nodes]
      exact .cons (.set he hn hv) (List.rel_append he.nodes hv.nodes)
  | _, _, .unary ho hr => by
      rw [Expr.nodes, Expr.nodes]
      exact .cons (.unary ho hr) hr.nodes
  | _, _, .var hn => .cons (.var hn) .nil

theorem AlikeList.nodes : ∀ {es es' : List Expr}, AlikeList T V es es' →
    List.Forall₂ (Alike T V) (nodesOfList es) (nodesOfList es')
  | _, _, .nil => .nil
  | _, _, .cons he hes => List.rel_append he.nodes hes.nodes

end

/-- What makes an expression like itself makes each of its nodes like itself. -/
theorem Alike.node {e node : Expr} (h : Alike T V e e) (hnode : node ∈ e.nodes) :
    Alike T V node node := List.forall₂_same.mp h.nodes node hnode

/-! ## Alike node by node -/

/-- Members that correspond by way of a third list. -/
theorem forall₂_trans_of_mem {α β γ : Type} {R : α → β → Prop} {S : β → γ → Prop}
    {P : α → γ → Prop} {as : List α} {bs : List β} {cs : List γ} (h : List.Forall₂ R as bs)
    (h' : List.Forall₂ S bs cs) (htrans : ∀ a ∈ as, ∀ b c, R a b → S b c → P a c) :
    List.Forall₂ P as cs := by
  induction h generalizing cs with
  | nil =>
    cases h'
    exact .nil
  | cons hab _ ih =>
    cases h' with
    | cons hbc h' =>
      rw [List.forall_mem_cons] at htrans
      exact .cons (htrans.1 _ _ hab hbc) (ih h' htrans.2)

/-- The tokens that a node itself holds. -/
def ownTokens : Expr → List Token
  | assign target operator _ => [target, operator]
  | binary _ operator _ => [operator]
  | call _ _ => []
  | get _ name => [name]
  | grouping _ => []
  | literal _ => []
  | logical _ operator _ => [operator]
  | set _ name _ => [name]
  | unary operator _ => [operator]
  | var name => [name]

/-- The value that a node itself holds, which only a literal does. -/
def ownValues : Expr → List Value
  | literal value => [value]
  | _ => []

/-- A node of the expression itself holds the token. -/
def Holds (e : Expr) (t : Token) : Prop := ∃ node ∈ e.nodes, t ∈ node.ownTokens

section

variable {T' : Token → Token → Prop} {V' : Value → Value → Prop} {a b c e e' part : Expr}

theorem holds_own {t : Token} (h : t ∈ e.ownTokens) : e.Holds t := by
  refine ⟨e, ?_, h⟩
  cases e <;> simp [nodes]

theorem holds_part {t : Token} (hpart : part ∈ e.parts) (h : part.Holds t) : e.Holds t := by
  obtain ⟨node, hnode, ht⟩ := h
  exact ⟨node, nodes_part_subset hpart hnode, ht⟩

theorem literal_mem_nodes {v : Value} (h : v ∈ e.ownValues) : literal v ∈ e.nodes := by
  cases e with
  | literal value =>
      rw [List.mem_singleton.mp h]
      exact List.mem_singleton.mpr rfl
  | _ => cases h

/-- **A node is its form, what it holds itself, and its parts.** -/
theorem alike_iff_parts :
    Alike T V e e' ↔ e.form = e'.form ∧ List.Forall₂ T e.ownTokens e'.ownTokens
      ∧ List.Forall₂ V e.ownValues e'.ownValues ∧ List.Forall₂ (Alike T V) e.parts e'.parts := by
  constructor
  · intro h
    cases h with
    | assign ht ho hv => exact ⟨rfl, .cons ht (.cons ho .nil), .nil, .cons hv .nil⟩
    | binary hl ho hr => exact ⟨rfl, .cons ho .nil, .nil, .cons hl (.cons hr .nil)⟩
    | call hc has => exact ⟨rfl, .nil, .nil, .cons hc (alikeList_iff.mp has)⟩
    | get he hn => exact ⟨rfl, .cons hn .nil, .nil, .cons he .nil⟩
    | grouping he => exact ⟨rfl, .nil, .nil, .cons he .nil⟩
    | literal hv => exact ⟨rfl, .nil, .cons hv .nil, .nil⟩
    | logical hl ho hr => exact ⟨rfl, .cons ho .nil, .nil, .cons hl (.cons hr .nil)⟩
    | set he hn hv => exact ⟨rfl, .cons hn .nil, .nil, .cons he (.cons hv .nil)⟩
    | unary ho hr => exact ⟨rfl, .cons ho .nil, .nil, .cons hr .nil⟩
    | var hn => exact ⟨rfl, .cons hn .nil, .nil, .nil⟩
  · intro h
    obtain ⟨hform, htokens, hvalues, hparts⟩ := h
    cases e with
    | assign target operator value =>
        cases e' with
        | assign target' operator' value' =>
            simp only [ownTokens, parts, List.forall₂_cons] at htokens hparts
            exact .assign htokens.1 htokens.2.1 hparts.1
        | _ => simp [form] at hform
    | binary left operator right =>
        cases e' with
        | binary left' operator' right' =>
            simp only [ownTokens, parts, List.forall₂_cons] at htokens hparts
            exact .binary hparts.1 htokens.1 hparts.2.1
        | _ => simp [form] at hform
    | call callee arguments =>
        cases e' with
        | call callee' arguments' =>
            simp only [parts, List.forall₂_cons] at hparts
            exact .call hparts.1 (alikeList_iff.mpr hparts.2)
        | _ => simp [form] at hform
    | get object name =>
        cases e' with
        | get object' name' =>
            simp only [ownTokens, parts, List.forall₂_cons] at htokens hparts
            exact .get hparts.1 htokens.1
        | _ => simp [form] at hform
    | grouping inner =>
        cases e' with
        | grouping inner' =>
            simp only [parts, List.forall₂_cons] at hparts
            exact .grouping hparts.1
        | _ => simp [form] at hform
    | literal value =>
        cases e' with
        | literal value' =>
            simp only [ownValues, List.forall₂_cons] at hvalues
            exact .literal hvalues.1
        | _ => simp [form] at hform
    | logical left operator right =>
        cases e' with
        | logical left' operator' right' =>
            simp only [ownTokens, parts, List.forall₂_cons] at htokens hparts
            exact .logical hparts.1 htokens.1 hparts.2.1
        | _ => simp [form] at hform
    | set object name value =>
        cases e' with
        | set object' name' value' =>
            simp only [ownTokens, parts, List.forall₂_cons] at htokens hparts
            exact .set hparts.1 htokens.1 hparts.2.1
        | _ => simp [form] at hform
    | unary operator right =>
        cases e' with
        | unary operator' right' =>
            simp only [ownTokens, parts, List.forall₂_cons] at htokens hparts
            exact .unary htokens.1 hparts.1
        | _ => simp [form] at hform
    | var name =>
        cases e' with
        | var name' =>
            simp only [ownTokens, List.forall₂_cons] at htokens
            exact .var htokens.1
        | _ => simp [form] at hform

theorem Alike.symm (hT : ∀ t t', T t t' → T t' t) (hV : ∀ v v', V v v' → V v' v)
    (h : Alike T V a b) : Alike T V b a := by
  induction a using parts_induction generalizing b with
  | step a ih =>
    obtain ⟨hform, htokens, hvalues, hparts⟩ := alike_iff_parts.mp h
    refine alike_iff_parts.mpr ⟨hform.symm, ?_, ?_, ?_⟩
    · exact (htokens.imp hT).flip
    · exact (hvalues.imp hV).flip
    · have hparts' := forall₂_imp_of_mem hparts fun part hpart _ _ hpartAlike =>
        ih part hpart hpartAlike
      exact hparts'.flip

theorem Alike.trans (hT : ∀ t t' t'', T t t' → T t' t'' → T t t'')
    (hV : ∀ v v' v'', V v v' → V v' v'' → V v v'') (h : Alike T V a b) (h' : Alike T V b c) :
    Alike T V a c := by
  induction a using parts_induction generalizing b c with
  | step a ih =>
    obtain ⟨hform, htokens, hvalues, hparts⟩ := alike_iff_parts.mp h
    obtain ⟨hform', htokens', hvalues', hparts'⟩ := alike_iff_parts.mp h'
    refine alike_iff_parts.mpr ⟨hform.trans hform', ?_, ?_, ?_⟩
    · exact forall₂_trans_of_mem htokens htokens' fun t _ t' t'' => hT t t' t''
    · exact forall₂_trans_of_mem hvalues hvalues' fun v _ v' v'' => hV v v' v''
    · exact forall₂_trans_of_mem hparts hparts' fun part hpart _ _ => ih part hpart

/-- Tokens and values need to be related in another way only where they stand in the expressions. -/
theorem Alike.imp (h : Alike T V a b) (hT : ∀ t t', a.Holds t → b.Holds t' → T t t' → T' t t')
    (hV : ∀ v v', .literal v ∈ a.nodes → .literal v' ∈ b.nodes → V v v' → V' v v') :
    Alike T' V' a b := by
  induction a using parts_induction generalizing b with
  | step a ih =>
    obtain ⟨hform, htokens, hvalues, hparts⟩ := alike_iff_parts.mp h
    refine alike_iff_parts.mpr ⟨hform, ?_, ?_, ?_⟩
    · exact forall₂_imp_of_mem htokens fun t ht t' ht' => hT t t' (holds_own ht) (holds_own ht')
    · exact forall₂_imp_of_mem hvalues fun v hv v' hv' =>
        hV v v' (literal_mem_nodes hv) (literal_mem_nodes hv')
    · refine forall₂_imp_of_mem hparts fun part hpart part' hpart' hpartAlike => ?_
      refine ih part hpart hpartAlike (fun t t' ht ht' => ?_) fun v v' hv hv' => ?_
      · exact hT t t' (holds_part hpart ht) (holds_part hpart' ht')
      · exact hV v v' (nodes_part_subset hpart hv) (nodes_part_subset hpart' hv')

/-- An expression is like itself if and only if all its tokens and values are. -/
theorem alike_self_iff :
    Alike T V e e ↔ (∀ t, e.Holds t → T t t) ∧ ∀ v, .literal v ∈ e.nodes → V v v := by
  constructor
  · intro h
    refine ⟨fun t ht => ?_, fun v hv => alike_literal.mp (h.node hv)⟩
    obtain ⟨node, hnode, ht⟩ := ht
    obtain ⟨_, htokens, _⟩ := alike_iff_parts.mp (h.node hnode)
    exact List.forall₂_same.mp htokens t ht
  · intro h
    obtain ⟨hT, hV⟩ := h
    induction e using parts_induction with
    | step e ih =>
      refine alike_iff_parts.mpr ⟨rfl, ?_, ?_, ?_⟩
      · exact List.forall₂_same.mpr fun t ht => hT t (holds_own ht)
      · exact List.forall₂_same.mpr fun v hv => hV v (literal_mem_nodes hv)
      · refine List.forall₂_same.mpr fun part hpart => ?_
        exact ih part hpart (fun t ht => hT t (holds_part hpart ht))
          fun v hv => hV v (nodes_part_subset hpart hv)

end

end Lox.Expr

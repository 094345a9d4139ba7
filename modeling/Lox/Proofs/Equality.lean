import Lox.Proofs.Alike
import Lox.Proofs.Doubles

/-!
# Equality

Expressions are equal if they have the same nodes with equal tokens and equal values. Underneath,
this is the equality of numbers, for which an undefined number is not equal to itself, and the two
zeros are equal although they are not the same. So equality is symmetric and transitive, but neither
is every expression equal to itself nor are equal expressions the same.
-/

namespace Lox

/-! ## Equal values -/

/-- Both zeros are shown as one text. -/
theorem Number.text_of_isZero {x : Float} (h : IsZero x) : text x = "0" := by
  rcases h with rfl | rfl
  · decide +kernel
  · decide +kernel

namespace Value

variable {v v' : Value}

/-- Values are equal if they are equal numbers, or the same but no numbers. -/
theorem beq_iff :
    (v == v') = true ↔
      (∃ x y, v = .number x ∧ v' = .number y ∧ (x == y) = true) ∨ v = v' ∧ ∀ x, v ≠ .number x := by
  change Value.beq v v' = true ↔ _
  cases v <;> cases v' <;> simp [Value.beq]

instance : PartialEquivBEq Value where
  symm h := by
    rcases beq_iff.mp h with ⟨x, y, rfl, rfl, hxy⟩ | ⟨rfl, _⟩
    · exact beq_iff.mpr (Or.inl ⟨y, x, rfl, rfl, BEq.symm hxy⟩)
    · exact h
  trans h h' := by
    rcases beq_iff.mp h with ⟨x, y, rfl, rfl, hxy⟩ | ⟨rfl, _⟩
    · rcases beq_iff.mp h' with ⟨y', z, hy, rfl, hyz⟩ | ⟨_, hnone⟩
      · obtain rfl := Value.number.inj hy
        exact beq_iff.mpr (Or.inl ⟨x, z, rfl, rfl, BEq.trans hxy hyz⟩)
      · exact absurd rfl (hnone y)
    · exact h'

/-- Only an undefined number differs from itself. -/
theorem beq_self_iff : (v == v) = true ↔ v ≠ .number Float.nan := by
  change Value.beq v v = true ↔ _
  cases v with
  | number x => rw [Value.beq, Float.beq_self_iff, ne_eq, ne_eq, number.injEq]
  | _ => simp [Value.beq]

/-- Values that are equal are shown as the same. -/
theorem text_eq_of_beq (h : (v == v') = true) : v.text = v'.text := by
  rcases beq_iff.mp h with ⟨x, y, rfl, rfl, hxy⟩ | ⟨rfl, _⟩
  · obtain ⟨_, _, rfl | ⟨hx, hy⟩⟩ := Number.beq_iff.mp hxy
    · rfl
    · exact (Number.text_of_isZero hx).trans (Number.text_of_isZero hy).symm
  · rfl

/-- And they are the same, unless one of them is the zero with a minus sign. -/
theorem eq_of_beq (h : (v == v') = true) (hv : v ≠ .number (-0.0)) (hv' : v' ≠ .number (-0.0)) :
    v = v' := by
  rcases beq_iff.mp h with ⟨x, y, rfl, rfl, hxy⟩ | ⟨rfl, _⟩
  · obtain ⟨_, _, rfl | ⟨rfl | rfl, rfl | rfl⟩⟩ := Number.beq_iff.mp hxy
    · rfl
    · rfl
    · exact absurd rfl hv'
    · exact absurd rfl hv
    · exact absurd rfl hv
  · rfl

end Value

/-! ## Equal tokens -/

instance instPartialEquivBEqOption {α : Type} [BEq α] [PartialEquivBEq α] :
    PartialEquivBEq (Option α) where
  symm {o o'} h := by
    cases o with
    | none =>
        cases o' with
        | none => rfl
        | some _ => cases h
    | some a =>
        cases o' with
        | none => cases h
        | some a' => exact BEq.symm (α := α) h
  trans {o o' o''} h h' := by
    cases o' with
    | none =>
        cases o with
        | none => exact h'
        | some _ => cases h
    | some a' =>
        cases o with
        | none => cases h
        | some a =>
            cases o'' with
            | none => cases h'
            | some a'' => exact BEq.trans (α := α) h h'

namespace Token

variable {t t' : Token}

/-- Tokens that are used alike: all is the same but for their literals. -/
structure SameUse (t t' : Token) : Prop where
  kind : t.kind = t'.kind
  lexeme : t.lexeme = t'.lexeme
  line : t.line = t'.line

/-- A function that does not look at the literal takes such tokens for one. -/
theorem SameUse.congr {α : Type} (h : t.SameUse t') (f : Token → α)
    (hf : ∀ (t : Token) (literal : Option Value), f { t with literal } = f t) : f t = f t' := by
  obtain ⟨hkind, hlexeme, hline⟩ := h
  have hsame : { t' with literal := t.literal } = t := by
    rw [← hkind, ← hlexeme, ← hline]
  rw [← hf t' t.literal, hsame]

theorem beq_iff : (t == t') = true ↔ t.SameUse t' ∧ (t.literal == t'.literal) = true := by
  have hall : (t == t') = (t.kind == t'.kind && t.lexeme == t'.lexeme && t.literal == t'.literal
    && t.line == t'.line) := rfl
  rw [hall, Bool.and_eq_true, Bool.and_eq_true, Bool.and_eq_true]
  constructor
  · intro h
    obtain ⟨⟨⟨hkind, hlexeme⟩, hliteral⟩, hline⟩ := h
    exact ⟨⟨eq_of_beq hkind, eq_of_beq hlexeme, eq_of_beq hline⟩, hliteral⟩
  · intro h
    obtain ⟨⟨hkind, hlexeme, hline⟩, hliteral⟩ := h
    exact ⟨⟨⟨beq_iff_eq.mpr hkind, beq_iff_eq.mpr hlexeme⟩, hliteral⟩, beq_iff_eq.mpr hline⟩

instance : PartialEquivBEq Token where
  symm h := by
    obtain ⟨⟨hkind, hlexeme, hline⟩, hliteral⟩ := beq_iff.mp h
    exact beq_iff.mpr ⟨⟨hkind.symm, hlexeme.symm, hline.symm⟩, BEq.symm hliteral⟩
  trans h h' := by
    obtain ⟨⟨hkind, hlexeme, hline⟩, hliteral⟩ := beq_iff.mp h
    obtain ⟨⟨hkind', hlexeme', hline'⟩, hliteral'⟩ := beq_iff.mp h'
    exact beq_iff.mpr ⟨⟨hkind.trans hkind', hlexeme.trans hlexeme', hline.trans hline'⟩,
      BEq.trans hliteral hliteral'⟩

theorem beq_self_iff : (t == t) = true ↔ t.literal ≠ some (.number Float.nan) := by
  rw [beq_iff]
  refine (and_iff_right ⟨rfl, rfl, rfl⟩).trans ?_
  cases t.literal with
  | none => simp
  | some v => exact Value.beq_self_iff.trans (not_congr (Option.some.injEq v _).symm.to_iff)

end Token

/-! ## Equal expressions -/

namespace Expr

theorem beqList_iff {es es' : List Expr} :
    beqList es es' = true ↔ List.Forall₂ (fun e e' => Expr.beq e e' = true) es es' := by
  induction es generalizing es' with
  | nil =>
    cases es' with
    | nil => exact ⟨fun _ => .nil, fun _ => rfl⟩
    | cons e' es' => constructor <;> intro h <;> cases h
  | cons e es ih =>
    cases es' with
    | nil => constructor <;> intro h <;> cases h
    | cons e' es' => rw [beqList, Bool.and_eq_true, ih, List.forall₂_cons]

/-- **Expressions are equal if and only if they are alike up to equal tokens and values.** -/
theorem beq_iff_alike {a b : Expr} : (a == b) = true ↔ a.Alike (· == ·) (· == ·) b := by
  change Expr.beq a b = true ↔ _
  induction a using parts_induction generalizing b with
  | step a ih =>
    cases a with
    | assign target operator value =>
        cases b with
        | assign => rw [Expr.beq, Bool.and_eq_true, Bool.and_eq_true, ih value (by simp [parts]),
            alike_assign, and_assoc]
        | _ => constructor <;> intro h <;> cases h
    | binary left operator right =>
        cases b with
        | binary => rw [Expr.beq, Bool.and_eq_true, Bool.and_eq_true, ih left (by simp [parts]),
            ih right (by simp [parts]), alike_binary, and_assoc]
        | _ => constructor <;> intro h <;> cases h
    | call callee arguments =>
        cases b with
        | call callee' arguments' =>
            have hall : beqList arguments arguments' = true
                ↔ AlikeList (· == ·) (· == ·) arguments arguments' := by
              rw [beqList_iff, alikeList_iff]
              exact ⟨fun h => forall₂_imp_of_mem h fun argument hargument _ _ =>
                  (ih argument (List.mem_cons_of_mem _ hargument)).mp,
                fun h => forall₂_imp_of_mem h fun argument hargument _ _ =>
                  (ih argument (List.mem_cons_of_mem _ hargument)).mpr⟩
            rw [Expr.beq, Bool.and_eq_true, ih callee (by simp [parts]), hall, alike_call]
        | _ => constructor <;> intro h <;> cases h
    | get object name =>
        cases b with
        | get => rw [Expr.beq, Bool.and_eq_true, ih object (by simp [parts]), alike_get]
        | _ => constructor <;> intro h <;> cases h
    | grouping inner =>
        cases b with
        | grouping => rw [Expr.beq, ih inner (by simp [parts]), alike_grouping]
        | _ => constructor <;> intro h <;> cases h
    | literal value =>
        cases b with
        | literal => rw [Expr.beq, alike_literal]
        | _ => constructor <;> intro h <;> cases h
    | logical left operator right =>
        cases b with
        | logical => rw [Expr.beq, Bool.and_eq_true, Bool.and_eq_true, ih left (by simp [parts]),
            ih right (by simp [parts]), alike_logical, and_assoc]
        | _ => constructor <;> intro h <;> cases h
    | set object name value =>
        cases b with
        | set => rw [Expr.beq, Bool.and_eq_true, Bool.and_eq_true, ih object (by simp [parts]),
            ih value (by simp [parts]), alike_set, and_assoc]
        | _ => constructor <;> intro h <;> cases h
    | unary operator right =>
        cases b with
        | unary => rw [Expr.beq, Bool.and_eq_true, ih right (by simp [parts]), alike_unary]
        | _ => constructor <;> intro h <;> cases h
    | var name =>
        cases b with
        | var => rw [Expr.beq, alike_var]
        | _ => constructor <;> intro h <;> cases h

instance : PartialEquivBEq Expr where
  symm h := beq_iff_alike.mpr
    ((beq_iff_alike.mp h).symm (fun _ _ => BEq.symm) fun _ _ => BEq.symm)
  trans h h' := beq_iff_alike.mpr
    ((beq_iff_alike.mp h).trans (fun _ _ _ => BEq.trans) (fun _ _ _ => BEq.trans)
      (beq_iff_alike.mp h'))

/-- An expression is equal to itself unless an undefined number is one of its values, or the literal
of one of its tokens. -/
theorem beq_self_iff {e : Expr} :
    (e == e) = true ↔ (∀ t, e.Holds t → t.literal ≠ some (.number Float.nan))
      ∧ ∀ v, .literal v ∈ e.nodes → v ≠ .number Float.nan := by
  rw [beq_iff_alike, alike_self_iff]
  simp only [Token.beq_self_iff, Value.beq_self_iff]

end Expr

end Lox

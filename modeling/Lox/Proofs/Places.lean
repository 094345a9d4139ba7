import Lox.Proofs.Alike
import Lox.Proofs.References

/-!
# Where the references of an expression stand

A place is a way down from the root of an expression to one of its nodes. That a variable is used,
in which order this happens, and under which condition, can all be said of places: which node is
there, which of two places evaluation is done with first, and what the way down leads through.
This file shows that the list of references says the same, with one reference for each place that
uses a variable.
-/

namespace Lox

/-- A way down into an expression: the number of the part that is taken at each node. -/
abbrev Place := List Nat

/-- Evaluation is done with the first place before it is done with the second one: with the parts
of a node before the node, and with each part before those on its right. -/
inductive Place.Before : Place → Place → Prop where
  | inside {i : Nat} {p : Place} : Before (i :: p) []
  | left {i j : Nat} {p q : Place} : i < j → Before (i :: p) (j :: q)
  | within {i : Nat} {p q : Place} : Before p q → Before (i :: p) (i :: q)

theorem Place.Before.ne {p q : Place} (h : p.Before q) : p ≠ q := by
  induction h with
  | inside => nofun
  | left hlt =>
      intro heq
      exact absurd (List.cons.inj heq).1 (Nat.ne_of_lt hlt)
  | within _ ih =>
      intro heq
      exact ih (List.cons.inj heq).2

namespace Expr

/-! ## What is at a place -/

/-- The node at a place. -/
def nodeAt? : Expr → Place → Option Expr
  | e, [] => some e
  | e, i :: below => e.parts[i]?.bind fun part => part.nodeAt? below

/-- The variable that a node uses by itself, and what it does with it. -/
def use? : Expr → Option (Token × Access)
  | assign target _ _ => some (target, .write)
  | var name => some (name, .read)
  | _ => none

/-- Whether the node may leave its right side unevaluated. -/
def skipsRight : Expr → Bool
  | logical .. => true
  | _ => false

/-- The node at the place uses a variable, and this is a reference to it. -/
def UsesAt (e : Expr) (p : Place) (r : Reference) : Prop :=
  ∃ node name, e.nodeAt? p = some node ∧ node.use? = some (name, r.access)
    ∧ r.name = name.lexeme ∧ r.line = name.line

/-- The way to the place leads into the right side of an operator that may leave it unevaluated. -/
def GuardedAt (e : Expr) (p : Place) : Prop :=
  ∃ above below left operator right,
    p = above ++ 1 :: below ∧ e.nodeAt? above = some (logical left operator right)

variable {e part : Expr} {i : Nat} {p : Place} {r : Reference}

theorem nodeAt?_part (h : e.parts[i]? = some part) : e.nodeAt? (i :: p) = part.nodeAt? p := by
  rw [nodeAt?, h]
  rfl

theorem UsesAt.of_part (h : e.parts[i]? = some part) (hr : part.UsesAt p r) :
    e.UsesAt (i :: p) r := by
  obtain ⟨node, name, hnode, huse⟩ := hr
  exact ⟨node, name, (nodeAt?_part h).trans hnode, huse⟩

theorem not_guardedAt_root : ¬e.GuardedAt [] := by
  rintro ⟨above, below, _, _, _, heq, _⟩
  cases above <;> cases heq

/-- A place in a part is guarded in that part, or the part itself is such a right side. -/
theorem guardedAt_part (h : e.parts[i]? = some part) :
    e.GuardedAt (i :: p) ↔ (i = 1 ∧ e.skipsRight = true) ∨ part.GuardedAt p := by
  constructor
  · rintro ⟨above, below, left, operator, right, heq, hnode⟩
    cases above with
    | nil =>
        cases hnode
        exact Or.inl ⟨(List.cons.inj heq).1, rfl⟩
    | cons j above =>
        obtain ⟨rfl, rfl⟩ := List.cons.inj heq
        exact Or.inr ⟨above, below, left, operator, right, rfl, (nodeAt?_part h).symm.trans hnode⟩
  · rintro (⟨rfl, hskips⟩ | ⟨above, below, left, operator, right, rfl, hnode⟩)
    · cases e with
      | logical left operator right => exact ⟨[], p, left, operator, right, rfl, rfl⟩
      | _ => cases hskips
    · exact ⟨i :: above, below, left, operator, right, rfl, (nodeAt?_part h).trans hnode⟩

/-! ## The places that use a variable -/

mutual

/-- The places that use a variable, in the order in which evaluation would be done with them. -/
def places : Expr → List Place
  | assign _ _ value => value.places.map (0 :: ·) ++ [[]]
  | binary left _ right => left.places.map (0 :: ·) ++ right.places.map (1 :: ·)
  | call callee arguments => callee.places.map (0 :: ·) ++ placesOfList 1 arguments
  | get object _ => object.places.map (0 :: ·)
  | grouping inner => inner.places.map (0 :: ·)
  | literal _ => []
  | logical left _ right => left.places.map (0 :: ·) ++ right.places.map (1 :: ·)
  | set object _ value => object.places.map (0 :: ·) ++ value.places.map (1 :: ·)
  | unary _ right => right.places.map (0 :: ·)
  | var _ => [[]]

/-- The places in several parts of a node, the first of which has the number `first`. -/
def placesOfList (first : Nat) : List Expr → List Place
  | [] => []
  | e :: es => e.places.map (first :: ·) ++ placesOfList (first + 1) es

end

/-- The places in the parts of a node come first, and then the node itself if it uses a variable. -/
theorem places_eq (e : Expr) :
    e.places = placesOfList 0 e.parts ++ if e.use?.isSome then [[]] else [] := by
  cases e <;> simp [places, placesOfList, parts, use?]

theorem mem_placesOfList {es : List Expr} {first : Nat} :
    p ∈ placesOfList first es ↔
      ∃ i part below, es[i]? = some part ∧ below ∈ part.places ∧ p = (first + i) :: below := by
  induction es generalizing first with
  | nil => simp [placesOfList]
  | cons e es ih =>
    rw [placesOfList, List.mem_append, List.mem_map, ih]
    constructor
    · rintro (⟨below, hbelow, rfl⟩ | ⟨i, part, below, hpart, hbelow, rfl⟩)
      · exact ⟨0, e, below, rfl, hbelow, rfl⟩
      · exact ⟨i + 1, part, below, hpart, hbelow, by rw [Nat.add_right_comm, Nat.add_assoc]⟩
    · rintro ⟨i, part, below, hpart, hbelow, rfl⟩
      cases i with
      | zero =>
          cases hpart
          exact Or.inl ⟨below, hbelow, rfl⟩
      | succ i =>
          refine Or.inr ⟨i, part, below, hpart, hbelow, ?_⟩
          rw [Nat.add_right_comm, Nat.add_assoc]

/-- **All places that use a variable are among them**, by induction on the parts. -/
theorem mem_places (e : Expr) :
    ∀ p, p ∈ e.places ↔ ∃ node, e.nodeAt? p = some node ∧ node.use?.isSome := by
  induction e using parts_induction with
  | step e ih =>
    intro p
    rw [places_eq, List.mem_append, mem_placesOfList]
    cases p with
    | nil =>
        constructor
        · rintro (⟨_, _, _, _, _, h⟩ | h)
          · cases h
          · split at h
            · exact ⟨e, rfl, ‹_›⟩
            · cases h
        · rintro ⟨node, hnode, huse⟩
          cases hnode
          rw [if_pos huse]
          exact Or.inr (List.mem_singleton.mpr rfl)
    | cons i below =>
        constructor
        · rintro (⟨j, part, below', hpart, hbelow, h⟩ | h)
          · rw [Nat.zero_add] at h
            obtain ⟨rfl, rfl⟩ := List.cons.inj h
            rw [nodeAt?_part hpart]
            exact (ih part (List.mem_of_getElem? hpart) below).mp hbelow
          · split at h <;> simp at h
        · rintro ⟨node, hnode, huse⟩
          obtain ⟨part, hpart, hbelow⟩ := Option.bind_eq_some_iff.mp hnode
          have hmem := (ih part (List.mem_of_getElem? hpart) below).mpr ⟨node, hbelow, huse⟩
          exact Or.inl ⟨i, part, below, hpart, hmem, by rw [Nat.zero_add]⟩

theorem placesOfList_pairwise {es : List Expr} (h : ∀ e ∈ es, e.places.Pairwise Place.Before)
    (first : Nat) : (placesOfList first es).Pairwise Place.Before := by
  induction es generalizing first with
  | nil => exact .nil
  | cons e es ih =>
    obtain ⟨he, hes⟩ := List.forall_mem_cons.mp h
    rw [placesOfList, List.pairwise_append]
    refine ⟨he.map _ fun _ _ => .within, ih hes (first + 1), fun p hp q hq => ?_⟩
    obtain ⟨below, _, rfl⟩ := List.mem_map.mp hp
    obtain ⟨i, _, below', _, _, rfl⟩ := mem_placesOfList.mp hq
    exact .left (by omega)

/-- **They are in the order of evaluation**, by induction on the parts. -/
theorem places_pairwise (e : Expr) : e.places.Pairwise Place.Before := by
  induction e using parts_induction with
  | step e ih =>
    rw [places_eq, List.pairwise_append]
    refine ⟨placesOfList_pairwise ih 0, by split <;> simp, fun p hp q hq => ?_⟩
    obtain ⟨i, _, below, _, _, rfl⟩ := mem_placesOfList.mp hp
    split at hq
    · rw [List.mem_singleton.mp hq]
      exact .inside
    · cases hq

/-! ## One reference for each of them -/

/-- A reference to what a place uses. Under a condition `c` it is conditional in any case. -/
def RefersAt (c : Bool) (e : Expr) (p : Place) (r : Reference) : Prop :=
  e.UsesAt p r ∧ (r.conditional = true ↔ c = true ∨ e.GuardedAt p)

variable {c c' : Bool}

/-- References in a part are references in the whole, if the part is under the condition that the
whole puts it under. -/
theorem RefersAt.of_part {ps : List Place} {rs : List Reference} (hpart : e.parts[i]? = some part)
    (hc : c' = true ↔ c = true ∨ (i = 1 ∧ e.skipsRight = true))
    (h : List.Forall₂ (RefersAt c' part) ps rs) :
    List.Forall₂ (RefersAt c e) (ps.map (i :: ·)) rs := by
  refine List.forall₂_map_left_iff.mpr (h.imp fun p r ⟨huses, hcond⟩ => ⟨huses.of_part hpart, ?_⟩)
  rw [hcond, hc, guardedAt_part hpart, or_assoc]

/-- The reference that a node makes by itself is on no way into a right side. -/
theorem RefersAt.at_root {name : Token} {access : Access} (h : e.use? = some (name, access)) :
    List.Forall₂ (RefersAt c e) [[]] [⟨name.lexeme, name.line, access, c⟩] :=
  .cons ⟨⟨e, name, rfl, h, rfl, rfl⟩, by simp [not_guardedAt_root]⟩ .nil

mutual

/-- **The references of an expression are those of its places, one by one.** -/
theorem references_refer (c : Bool) :
    ∀ e : Expr, List.Forall₂ (RefersAt c e) e.places (e.references c)
  | assign target _ value => by
      rw [places, references]
      exact List.rel_append (RefersAt.of_part rfl (by simp) (references_refer c value))
        (RefersAt.at_root rfl)
  | binary left _ right => by
      rw [places, references]
      exact List.rel_append (RefersAt.of_part rfl (by simp) (references_refer c left))
        (RefersAt.of_part rfl (by simp [skipsRight]) (references_refer c right))
  | call callee arguments => by
      rw [places, references]
      exact List.rel_append (RefersAt.of_part rfl (by simp) (references_refer c callee))
        (referencesOfList_refer c arguments (by simp [skipsRight]) 1 fun i => by
          rw [parts, Nat.add_comm, List.getElem?_cons_succ])
  | get object _ => by
      rw [places, references]
      exact RefersAt.of_part rfl (by simp) (references_refer c object)
  | grouping inner => by
      rw [places, references]
      exact RefersAt.of_part rfl (by simp) (references_refer c inner)
  | literal _ => .nil
  | logical left _ right => by
      rw [places, references]
      -- the right side is under a condition, whatever the whole is under
      exact List.rel_append (RefersAt.of_part rfl (by simp) (references_refer c left))
        (RefersAt.of_part rfl (by simp [skipsRight]) (references_refer true right))
  | set object _ value => by
      rw [places, references]
      exact List.rel_append (RefersAt.of_part rfl (by simp) (references_refer c object))
        (RefersAt.of_part rfl (by simp [skipsRight]) (references_refer c value))
  | unary _ right => by
      rw [places, references]
      exact RefersAt.of_part rfl (by simp) (references_refer c right)
  | var _ => RefersAt.at_root rfl

theorem referencesOfList_refer {e : Expr} (c : Bool) :
    ∀ es : List Expr, e.skipsRight = false → ∀ first, (∀ i, e.parts[first + i]? = es[i]?) →
      List.Forall₂ (RefersAt c e) (placesOfList first es) (referencesOfList c es)
  | [], _, _, _ => .nil
  | a :: as, hskips, first, hparts => by
      rw [placesOfList, referencesOfList]
      refine List.rel_append
        (RefersAt.of_part (hparts 0) (by simp [hskips]) (references_refer c a)) ?_
      refine referencesOfList_refer c as hskips (first + 1) fun i => ?_
      rw [Nat.add_right_comm, Nat.add_assoc, hparts (i + 1), List.getElem?_cons_succ]

end

end Expr

end Lox

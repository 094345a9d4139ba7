import Mathlib.Data.List.Forall2
import Lox.Proofs.LongestMatch

/-!
# Texts that can be taken apart

Two things are written down, and the texts are the same. Are the things the same? The answer is
found part by part, and so a part is always looked at with what follows it. `SameOnlyIf Stop a b p`
says of two parts `a` and `b` that they start one and the same text only if `p`, and that then the
same follows them. What may follow is said by `Stop`: a number, for example, is over when a
character comes that is in no number.
-/

namespace Lox

/-- Texts that start with `a` and with `b` are the same only if `p`, and the same follows then. -/
def SameOnlyIf (Stop : List Char → Prop) (a b : List Char) (p : Prop) : Prop :=
  ∀ rest rest', Stop rest → Stop rest' → a ++ rest = b ++ rest' → p ∧ rest = rest'

/-- Anything may follow. -/
def Anything : List Char → Prop := fun _ => True

/-- What follows is nothing, or starts with a character that is not of this class. -/
def Ends (cls : Char → Bool) (rest : List Char) : Prop := ∀ c ∈ rest.head?, cls c = false

theorem ends_nil (cls : Char → Bool) : Ends cls [] := by
  intro c hc
  cases hc

theorem ends_cons {cls : Char → Bool} {c : Char} (h : cls c = false) (rest : List Char) :
    Ends cls (c :: rest) := by
  intro d hd
  cases hd
  exact h

namespace SameOnlyIf

variable {Stop Stop' Mid : List Char → Prop} {a a' b b' : List Char} {p q : Prop} {c d : Char}

theorem imp (h : SameOnlyIf Stop a b p) (hp : p → q) : SameOnlyIf Stop a b q := by
  intro rest rest' hrest hrest' heq
  obtain ⟨h₁, h₂⟩ := h rest rest' hrest hrest' heq
  exact ⟨hp h₁, h₂⟩

theorem mono (h : SameOnlyIf Stop a b p) (hstop : ∀ rest, Stop' rest → Stop rest) :
    SameOnlyIf Stop' a b p :=
  fun rest rest' hrest hrest' heq => h rest rest' (hstop _ hrest) (hstop _ hrest') heq

theorem symm (h : SameOnlyIf Stop a b p) : SameOnlyIf Stop b a p := by
  intro rest rest' hrest hrest' heq
  obtain ⟨hp, hsame⟩ := h rest' rest hrest' hrest heq.symm
  exact ⟨hp, hsame.symm⟩

theorem self (h : p) : SameOnlyIf Stop a a p :=
  fun _ _ _ _ heq => ⟨h, List.append_cancel_left heq⟩

/-- Texts with different first characters are never the same. -/
theorem of_ne (h : c ≠ d) : SameOnlyIf Stop (c :: a) (d :: b) p := by
  intro rest rest' _ _ heq
  rw [List.cons_append, List.cons_append] at heq
  exact absurd (List.cons.inj heq).1 h

theorem cons (h : SameOnlyIf Stop a b p) : SameOnlyIf Stop (c :: a) (c :: b) p := by
  intro rest rest' hrest hrest' heq
  rw [List.cons_append, List.cons_append] at heq
  exact h rest rest' hrest hrest' (List.cons.inj heq).2

/-- **One part and then another**, where the first is over when the second starts. -/
theorem append (h : SameOnlyIf Mid a b p) (h' : p → SameOnlyIf Stop a' b' q)
    (hmid : ∀ rest, Stop rest → Mid (a' ++ rest)) (hmid' : ∀ rest, Stop rest → Mid (b' ++ rest)) :
    SameOnlyIf Stop (a ++ a') (b ++ b') (p ∧ q) := by
  intro rest rest' hrest hrest' heq
  rw [List.append_assoc, List.append_assoc] at heq
  obtain ⟨hp, heq⟩ := h _ _ (hmid rest hrest) (hmid' rest' hrest') heq
  obtain ⟨hq, heq⟩ := h' hp rest rest' hrest hrest' heq
  exact ⟨⟨hp, hq⟩, heq⟩

/-- The same characters in front of two parts. -/
theorem behind (start : List Char) (h : SameOnlyIf Stop a b p) :
    SameOnlyIf Stop (start ++ a) (start ++ b) p := by
  intro rest rest' hrest hrest' heq
  rw [List.append_assoc, List.append_assoc] at heq
  exact h rest rest' hrest hrest' (List.append_cancel_left heq)

/-- The same characters behind two parts, which are over in front of them. -/
theorem before (stop : List Char) (h : SameOnlyIf Mid a b p)
    (hmid : ∀ rest, Stop rest → Mid (stop ++ rest)) :
    SameOnlyIf Stop (a ++ stop) (b ++ stop) p :=
  (h.append (fun hp => self hp) hmid hmid).imp And.left

/-- A part that can be read back is the part it is read as. -/
theorem of_read {α : Type} {x y : α} (read : List Char → Option (α × List Char))
    (h : ∀ rest, Stop rest → read (a ++ rest) = some (x, rest))
    (h' : ∀ rest, Stop rest → read (b ++ rest) = some (y, rest)) : SameOnlyIf Stop a b (x = y) := by
  intro rest rest' hrest hrest' heq
  have hread := h rest hrest
  rw [heq, h' rest' hrest'] at hread
  cases hread
  exact ⟨rfl, rfl⟩

/-- Two words of a class of characters are one word if both are over. -/
theorem of_class {cls : Char → Bool} (h : ∀ c ∈ a, cls c = true) (h' : ∀ c ∈ b, cls c = true) :
    SameOnlyIf (Ends cls) a b (a = b) := by
  have hword : ∀ {word rest : List Char}, (∀ c ∈ word, cls c = true) → Ends cls rest →
      (word ++ rest).takeWhile cls = word ∧ (word ++ rest).dropWhile cls = rest := by
    intro word rest hword hrest
    cases rest with
    | nil =>
        rw [List.append_nil]
        exact takeWhile_all hword
    | cons stop later => exact takeWhile_before later hword (hrest stop rfl)
  intro rest rest' hrest hrest' heq
  obtain ⟨htake, hdrop⟩ := hword h hrest
  obtain ⟨htake', hdrop'⟩ := hword h' hrest'
  rw [heq] at htake hdrop
  exact ⟨htake.symm.trans htake', hdrop.symm.trans hdrop'⟩

/-! ## Any number of parts -/

/-- The text of any number of parts, each behind the character `sep` and the characters `lead`. -/
def parts {α : Type} (sep : Char) (lead : List Char) (write : α → List Char) (xs : List α) :
    List Char :=
  xs.flatMap fun x => sep :: (lead ++ write x)

variable {α : Type} {sep : Char} {write : α → List Char} {P : α → α → Prop}

/-- **Parts in turn are the same one by one**, if another part can follow each of them and the
character in front of a part is not what follows the last. -/
theorem of_parts (lead : List Char) (hsep : ∀ later, Stop (sep :: later)) {xs ys : List α}
    (h : ∀ x ∈ xs, ∀ y ∈ ys, SameOnlyIf Stop (write x) (write y) (P x y)) :
    SameOnlyIf (fun rest => Stop rest ∧ rest.head? ≠ some sep) (parts sep lead write xs)
      (parts sep lead write ys) (List.Forall₂ P xs ys) := by
  -- what follows a part is another part, or what follows them all
  have hnext : ∀ (zs : List α) (rest : List Char), Stop rest →
      Stop (parts sep lead write zs ++ rest) := by
    intro zs rest hrest
    cases zs with
    | nil => exact hrest
    | cons z zs => exact hsep _
  induction xs generalizing ys with
  | nil =>
    cases ys with
    | nil => exact self .nil
    | cons y ys =>
      rintro rest rest' ⟨_, hrest⟩ _ heq
      exact absurd (congrArg List.head? heq) hrest
  | cons x xs ih =>
    cases ys with
    | nil =>
      rintro rest rest' _ ⟨_, hrest'⟩ heq
      exact absurd (congrArg List.head? heq.symm) hrest'
    | cons y ys =>
      have hfirst := h x (List.mem_cons_self ..) y (List.mem_cons_self ..)
      have hlater := ih fun x hx y hy =>
        h x (List.mem_cons_of_mem _ hx) y (List.mem_cons_of_mem _ hy)
      have hboth := hfirst.append (fun _ => hlater) (fun rest hrest => hnext xs rest hrest.1)
        (fun rest hrest => hnext ys rest hrest.1)
      have hlead := (hboth.behind lead).cons (c := sep)
      rw [← List.append_assoc, ← List.append_assoc] at hlead
      exact hlead.imp fun ⟨hxy, hall⟩ => .cons hxy hall

end SameOnlyIf

end Lox

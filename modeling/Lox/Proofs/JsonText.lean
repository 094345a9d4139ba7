import Lox.Json
import Lox.Proofs.DecimalText
import Lox.Proofs.UniqueText

/-!
# Documents by their text

Different documents have different texts, on one line and on many. The two writers differ only in
what they put between the parts of a document, so they are one writer here, `Json.chars`, with the
layout as a parameter; and all that matters of a layout is that it is made of blanks and line ends.
The first character of a document tells what it is, and every kind of document can be taken apart by
what it ends with: strings by the quote that no escape starts with, numbers by the first character
that is in no number, lists and objects by their brackets.
-/

namespace Lox.Json

/-! ## One writer for both layouts -/

/-- What stands between the parts of a document. -/
structure Layout where
  /-- What stands in front of a part that lies at a depth, and in front of the bracket that ends a
  part there. -/
  gap : Nat → List Char
  /-- What stands between the colon of a member and its value. -/
  afterColon : List Char
  gap_blank : ∀ depth, ∀ c ∈ gap depth, c = '\n' ∨ c = ' '

/-- All on one line. -/
def Layout.oneLine : Layout := ⟨fun _ => [], [], fun _ _ h => nomatch h⟩

/-- A line for each part. -/
def Layout.manyLines : Layout where
  gap depth := '\n' :: List.replicate (2 * depth) ' '
  afterColon := [' ']
  gap_blank _ _ h := (List.mem_cons.mp h).imp id List.eq_of_mem_replicate

/-- The characters of a string with its quotes. -/
def quotedChars (s : String) : List Char := '"' :: (s.toList.flatMap escape ++ ['"'])

mutual

/-- The text of a document at a depth. -/
def chars (layout : Layout) (depth : Nat) : Json → List Char
  | null => ['n', 'u', 'l', 'l']
  | boolean true => ['t', 'r', 'u', 'e']
  | boolean false => ['f', 'a', 'l', 's', 'e']
  | natural n => Nat.toDigits 10 n
  | number x => (Number.shortestText pointRange x).toList
  | text s => quotedChars s
  | list [] => ['[', ']']
  | list (item :: items) =>
    '[' :: (layout.gap (depth + 1) ++ (chars layout (depth + 1) item
      ++ (charsOfItems layout (depth + 1) items ++ (layout.gap depth ++ [']']))))
  | object [] => ['\x7b', '\x7d']
  | object ((key, value) :: members) =>
    '\x7b' :: (layout.gap (depth + 1) ++ (quotedChars key ++ ':' :: (layout.afterColon
      ++ chars layout (depth + 1) value)
      ++ (charsOfMembers layout (depth + 1) members ++ (layout.gap depth ++ ['\x7d']))))

def charsOfItems (layout : Layout) (depth : Nat) : List Json → List Char
  | [] => []
  | item :: items =>
    ',' :: (layout.gap depth ++ chars layout depth item) ++ charsOfItems layout depth items

def charsOfMembers (layout : Layout) (depth : Nat) : List (String × Json) → List Char
  | [] => []
  | (key, value) :: members =>
    ',' :: (layout.gap depth ++ (quotedChars key ++ ':' :: (layout.afterColon
      ++ chars layout depth value))) ++ charsOfMembers layout depth members

end

theorem toList_quoted (s : String) : (quoted s).toList = quotedChars s := by
  simp only [quoted, String.toList_append, String.toList_ofList]
  rfl

theorem toList_newline (depth : Nat) : (newline depth).toList = Layout.manyLines.gap depth := by
  simp only [newline, String.toList_append, String.toList_ofList]
  rfl

mutual

theorem toList_compact (depth : Nat) : ∀ j : Json, j.compact.toList = chars .oneLine depth j
  | null => rfl
  | boolean true => rfl
  | boolean false => rfl
  | natural n => by rw [compact, chars, Nat.toString_eq_repr, Nat.toList_repr]
  | number _ => rfl
  | text s => toList_quoted s
  | list [] => rfl
  | list (item :: items) => by
      simp only [compact, chars, String.toList_append, toList_compact (depth + 1) item,
        toList_compactItems (depth + 1) items]
      simp [Layout.oneLine]
  | object [] => rfl
  | object ((key, value) :: members) => by
      simp only [compact, chars, String.toList_append, toList_quoted,
        toList_compact (depth + 1) value, toList_compactMembers (depth + 1) members]
      simp [Layout.oneLine]

theorem toList_compactItems (depth : Nat) :
    ∀ items : List Json, (compactItems items).toList = charsOfItems .oneLine depth items
  | [] => rfl
  | item :: items => by
      simp only [compactItems, charsOfItems, String.toList_append, toList_compact depth item,
        toList_compactItems depth items]
      simp [Layout.oneLine]

theorem toList_compactMembers (depth : Nat) : ∀ members : List (String × Json),
    (compactMembers members).toList = charsOfMembers .oneLine depth members
  | [] => rfl
  | (key, value) :: members => by
      simp only [compactMembers, charsOfMembers, String.toList_append, toList_quoted,
        toList_compact depth value, toList_compactMembers depth members]
      simp [Layout.oneLine]

end

mutual

theorem toList_indentedAt (depth : Nat) :
    ∀ j : Json, (j.indentedAt depth).toList = chars .manyLines depth j
  | null => by
      rw [indentedAt, chars]
      rfl
  | boolean true => by
      rw [indentedAt, chars]
      rfl
  | boolean false => by
      rw [indentedAt, chars]
      rfl
  | natural n => by rw [indentedAt, chars, Nat.toString_eq_repr, Nat.toList_repr]
  | number _ => by rw [indentedAt, chars]
  | text s => by rw [indentedAt, chars, toList_quoted]
  | list [] => by
      rw [indentedAt, chars]
      rfl
  | list (item :: items) => by
      simp only [indentedAt, chars, String.toList_append, toList_newline,
        toList_indentedAt (depth + 1) item, toList_indentedItems (depth + 1) items]
      simp
  | object [] => by
      rw [indentedAt, chars]
      rfl
  | object ((key, value) :: members) => by
      simp only [indentedAt, chars, String.toList_append, toList_quoted, toList_newline,
        toList_indentedAt (depth + 1) value, toList_indentedMembers (depth + 1) members]
      simp [Layout.manyLines]

theorem toList_indentedItems (depth : Nat) : ∀ items : List Json,
    (indentedItems depth items).toList = charsOfItems .manyLines depth items
  | [] => rfl
  | item :: items => by
      simp only [indentedItems, charsOfItems, String.toList_append, toList_newline,
        toList_indentedAt depth item, toList_indentedItems depth items]
      simp

theorem toList_indentedMembers (depth : Nat) : ∀ members : List (String × Json),
    (indentedMembers depth members).toList = charsOfMembers .manyLines depth members
  | [] => rfl
  | (key, value) :: members => by
      simp only [indentedMembers, charsOfMembers, String.toList_append, toList_quoted,
        toList_newline, toList_indentedAt depth value, toList_indentedMembers depth members]
      simp [Layout.manyLines]

end

/-! ## Strings -/

/-- The value of a hexadecimal digit. -/
def hexValue (c : Char) : Nat := ((List.range 16).find? fun d => Nat.digitChar d == c).getD 0

/-- The character that the escape behind a backslash stands for, and what follows. -/
def unescapeLetter : List Char → Option (Char × List Char)
  | '"' :: rest => some ('"', rest)
  | '\\' :: rest => some ('\\', rest)
  | 'b' :: rest => some ('\x08', rest)
  | 't' :: rest => some ('\t', rest)
  | 'n' :: rest => some ('\n', rest)
  | 'f' :: rest => some ('\x0c', rest)
  | 'r' :: rest => some ('\r', rest)
  | 'u' :: _ :: _ :: high :: low :: rest =>
    some (Char.ofNat (16 * hexValue high + hexValue low), rest)
  | _ => none

/-- The first character of the inside of a string, and what follows; none where the string ends. -/
def unescape : List Char → Option (Char × List Char)
  | [] => none
  | '"' :: _ => none
  | '\\' :: rest => unescapeLetter rest
  | c :: rest => some (c, rest)

theorem hexValue_digitChar : ∀ d < 16, hexValue (Nat.digitChar d) = d := by decide

/-- **An escape is read back as its character.** -/
theorem unescape_escape (c : Char) (rest : List Char) :
    unescape (escape c ++ rest) = some (c, rest) := by
  unfold escape
  split
  case h_8 hquote hbackslash _ _ _ _ _ =>
    split
    · rename_i hcontrol
      have hhigh := hexValue_digitChar (c.toNat / 16) (by omega)
      have hlow := hexValue_digitChar (c.toNat % 16) (by omega)
      have hcode : 16 * (c.toNat / 16) + c.toNat % 16 = c.toNat := by omega
      simp only [hexEscape, List.cons_append, List.nil_append, unescape, unescapeLetter, hhigh,
        hlow, hcode, Char.ofNat_toNat]
    · rw [List.singleton_append, unescape]
      · exact hquote
      · exact hbackslash
  all_goals rfl

/-- A string is over at the first quote that is not escaped. -/
theorem escapes_sameOnlyIf (cs cs' : List Char) :
    SameOnlyIf Anything (cs.flatMap escape ++ ['"']) (cs'.flatMap escape ++ ['"']) (cs = cs') := by
  -- in front of the quote no character is read
  have hends : ∀ (c : Char) (rest rest' : List Char), escape c ++ rest ≠ '"' :: rest' := by
    intro c rest rest' heq
    have hread := unescape_escape c rest
    rw [heq] at hread
    cases hread
  induction cs generalizing cs' with
  | nil =>
    cases cs' with
    | nil => exact .self rfl
    | cons c' cs' =>
      intro rest rest' _ _ heq
      simp only [List.flatMap_cons, List.append_assoc] at heq
      exact absurd heq.symm (hends c' _ _)
  | cons c cs ih =>
    cases cs' with
    | nil =>
      intro rest rest' _ _ heq
      simp only [List.flatMap_cons, List.append_assoc] at heq
      exact absurd heq (hends c _ _)
    | cons c' cs' =>
      have hfirst : SameOnlyIf Anything (escape c) (escape c') (c = c') :=
        .of_read unescape (fun rest _ => unescape_escape c rest) fun rest _ =>
          unescape_escape c' rest
      have hboth := hfirst.append (fun _ => ih cs') (fun _ _ => trivial) fun _ _ => trivial
      rw [List.flatMap_cons, List.flatMap_cons, List.append_assoc, List.append_assoc]
      exact hboth.imp fun ⟨hc, hcs⟩ => by rw [hc, hcs]

theorem quoted_sameOnlyIf (s s' : String) :
    SameOnlyIf Anything (quotedChars s) (quotedChars s') (s = s') :=
  (escapes_sameOnlyIf s.toList s'.toList).cons.imp String.toList_inj.mp

/-! ## Rows of parts between brackets -/

section Rows

variable {α : Type} {closing : Char} {write : α → List Char}

/-- Parts between brackets, with a comma between each two. -/
def row (layout : Layout) (depth : Nat) (opening closing : Char) (write : α → List Char) :
    List α → List Char
  | [] => [opening, closing]
  | x :: xs =>
    opening :: (layout.gap (depth + 1) ++ (write x
      ++ (SameOnlyIf.parts ',' (layout.gap (depth + 1)) write xs
        ++ (layout.gap depth ++ [closing]))))

/-- What a gap and something behind it start with. -/
theorem first_of_gap (layout : Layout) (depth : Nat) {text : List Char} {c : Char}
    (h : (layout.gap depth ++ text).head? = some c) :
    c = '\n' ∨ c = ' ' ∨ text.head? = some c := by
  cases hgap : layout.gap depth with
  | nil =>
      rw [hgap, List.nil_append] at h
      exact Or.inr (Or.inr h)
  | cons d later =>
      rw [hgap] at h
      cases h
      have hblank := layout.gap_blank depth c (hgap ▸ List.mem_cons_self ..)
      exact hblank.imp id Or.inl

/-- A bracket that ends a row is no blank and no comma, and in no number. -/
structure IsClosing (closing : Char) : Prop where
  ne_comma : closing ≠ ','
  ne_lineEnd : closing ≠ '\n'
  ne_space : closing ≠ ' '
  not_number : Number.isNumberChar closing = false

theorem isClosing_list : IsClosing ']' := ⟨by decide, by decide, by decide, by decide⟩

theorem isClosing_object : IsClosing '\x7d' := ⟨by decide, by decide, by decide, by decide⟩

/-- The end of a row ends a number, and is no comma. -/
theorem row_ends (layout : Layout) (depth : Nat) (hclosing : IsClosing closing) (rest : List Char) :
    Ends Number.isNumberChar (layout.gap depth ++ [closing] ++ rest)
      ∧ (layout.gap depth ++ [closing] ++ rest).head? ≠ some ',' := by
  rw [List.append_assoc]
  constructor
  · intro c hc
    rcases first_of_gap layout depth hc with rfl | rfl | hc
    · decide
    · decide
    · cases hc
      exact hclosing.not_number
  · intro hc
    rcases first_of_gap layout depth hc with hc | hc | hc
    · exact absurd hc (by decide)
    · exact absurd hc (by decide)
    · exact hclosing.ne_comma (Option.some.inj hc)

/-- A row with parts does not end where the first of them stands. -/
theorem not_closing (layout : Layout) (depth : Nat) (hclosing : IsClosing closing) {x : α}
    (hfirst : ∃ c later, write x = c :: later ∧ c ≠ closing) (rest : List Char) :
    (layout.gap depth ++ (write x ++ rest)).head? ≠ some closing := by
  intro hhead
  obtain ⟨c, later, hwrite, hc⟩ := hfirst
  rw [hwrite] at hhead
  rcases first_of_gap layout depth hhead with h | h | h
  · exact hclosing.ne_lineEnd h
  · exact hclosing.ne_space h
  · exact hc (Option.some.inj h)

/-- **Rows are the same part by part**, if their parts are the same when their texts are. -/
theorem row_sameOnlyIf (layout : Layout) (depth : Nat) (opening : Char)
    (hclosing : IsClosing closing) {xs ys : List α}
    (hfirst : ∀ x ∈ xs ++ ys, ∃ c later, write x = c :: later ∧ c ≠ closing)
    (h : ∀ x ∈ xs, ∀ y ∈ ys, SameOnlyIf (Ends Number.isNumberChar) (write x) (write y) (x = y)) :
    SameOnlyIf Anything (row layout depth opening closing write xs)
      (row layout depth opening closing write ys) (xs = ys) := by
  cases xs with
  | nil =>
      cases ys with
      | nil => exact .self rfl
      | cons y ys =>
          rw [row, row]
          intro rest rest' _ _ heq
          simp only [List.cons_append, List.append_assoc, List.cons.injEq, true_and] at heq
          have hy := hfirst y (List.mem_cons_self ..)
          exact absurd (congrArg List.head? heq).symm (not_closing layout _ hclosing hy _)
  | cons x xs =>
      cases ys with
      | nil =>
          rw [row, row]
          intro rest rest' _ _ heq
          simp only [List.cons_append, List.append_assoc, List.cons.injEq, true_and] at heq
          have hx := hfirst x (List.mem_append_left _ (List.mem_cons_self ..))
          exact absurd (congrArg List.head? heq) (not_closing layout _ hclosing hx _)
      | cons y ys =>
          have hcomma : ∀ later, Ends Number.isNumberChar (',' :: later) :=
            ends_cons (by decide)
          have hends : ∀ (zs : List α) (rest : List Char), Ends Number.isNumberChar
              (SameOnlyIf.parts ',' (layout.gap (depth + 1)) write zs
                ++ (layout.gap depth ++ [closing]) ++ rest) := by
            intro zs rest
            cases zs with
            | nil => exact (row_ends layout depth hclosing rest).1
            | cons z zs => exact hcomma _
          have hlater := SameOnlyIf.of_parts (layout.gap (depth + 1)) hcomma
            fun x hx y hy => h x (List.mem_cons_of_mem _ hx) y (List.mem_cons_of_mem _ hy)
          have hrow := (h x (List.mem_cons_self ..) y (List.mem_cons_self ..)).append
            (fun _ => hlater.before (layout.gap depth ++ [closing]) fun rest _ =>
              row_ends layout depth hclosing rest)
            (fun rest (_ : Anything rest) => hends xs rest) fun rest _ => hends ys rest
          rw [row, row]
          refine (hrow.behind (layout.gap (depth + 1))).cons.imp ?_
          rintro ⟨rfl, hall⟩
          rw [List.forall₂_eq_eq_eq] at hall
          rw [hall]

end Rows

/-! ## Documents -/

/-- A document whose numbers are finite. There is no text for others. -/
inductive Finite : Json → Prop where
  | null : Finite null
  | yes : Finite (boolean true)
  | no : Finite (boolean false)
  | natural (n : Nat) : Finite (natural n)
  | number {x : Float} : Number.isFinite x = true → Finite (number x)
  | text (s : String) : Finite (text s)
  | list {items : List Json} : (∀ item ∈ items, Finite item) → Finite (list items)
  | object {members : List (String × Json)} :
      (∀ member ∈ members, Finite member.2) → Finite (object members)

/-- The text of a member at a depth. -/
def memberChars (layout : Layout) (depth : Nat) (member : String × Json) : List Char :=
  quotedChars member.1 ++ ':' :: (layout.afterColon ++ chars layout depth member.2)

theorem charsOfItems_eq (layout : Layout) (depth : Nat) (items : List Json) :
    charsOfItems layout depth items
      = SameOnlyIf.parts ',' (layout.gap depth) (chars layout depth) items := by
  induction items with
  | nil => rfl
  | cons item items ih =>
    rw [charsOfItems, ih]
    rfl

theorem charsOfMembers_eq (layout : Layout) (depth : Nat) (members : List (String × Json)) :
    charsOfMembers layout depth members
      = SameOnlyIf.parts ',' (layout.gap depth) (memberChars layout depth) members := by
  induction members with
  | nil => rfl
  | cons member members ih =>
    rw [charsOfMembers, ih]
    rfl

theorem chars_list (layout : Layout) (depth : Nat) (items : List Json) :
    chars layout depth (list items)
      = row layout depth '[' ']' (chars layout (depth + 1)) items := by
  cases items with
  | nil => rw [chars, row]
  | cons item items => rw [chars, row, charsOfItems_eq]

theorem chars_object (layout : Layout) (depth : Nat) (members : List (String × Json)) :
    chars layout depth (object members)
      = row layout depth '\x7b' '\x7d' (memberChars layout (depth + 1)) members := by
  cases members with
  | nil => rw [chars, row]
  | cons member members => rw [chars, row, charsOfMembers_eq, memberChars]

/-! ### What a document starts with -/

/-- The character that stands for all that a document of its kind can start with. -/
def opening : Json → Char
  | null => 'n'
  | boolean true => 't'
  | boolean false => 'f'
  | natural _ => '0'
  | number _ => '0'
  | text _ => '"'
  | list _ => '['
  | object _ => '\x7b'

/-- A digit or a sign stands for any other. -/
def openingOf (c : Char) : Char := if c.isDigit || c == '-' then '0' else c

/-- **The first character of a document tells its kind.** -/
theorem first_chars (layout : Layout) (depth : Nat) (j : Json) :
    ∃ c later, chars layout depth j = c :: later ∧ openingOf c = j.opening := by
  cases j with
  | null => exact ⟨_, _, by rw [chars], rfl⟩
  | boolean b => cases b <;> exact ⟨_, _, by rw [chars], rfl⟩
  | natural n =>
      obtain ⟨c, later, hdigits⟩ :=
        List.exists_cons_of_ne_nil (Nat.toDigits_ne_nil (n := n) (b := 10))
      have hc : c.isDigit = true := Nat.isDigit_of_mem_toDigits (b := 10) (n := n) (by decide)
        (by decide) (hdigits ▸ List.mem_cons_self ..)
      refine ⟨c, later, by rw [chars, hdigits], ?_⟩
      rw [openingOf, hc, Bool.true_or, if_pos rfl, opening]
  | number x =>
      obtain ⟨c, later, hfirst, hc⟩ := Number.first_of_shortestText pointRange x
      refine ⟨c, later, by rw [chars, hfirst], ?_⟩
      rcases hc with hc | rfl
      · rw [openingOf, hc, Bool.true_or, if_pos rfl, opening]
      · rfl
  | text s => exact ⟨_, _, by rw [chars, quotedChars], rfl⟩
  | list items =>
      rw [chars_list]
      cases items <;> exact ⟨_, _, by rw [row], rfl⟩
  | object members =>
      rw [chars_object]
      cases members <;> exact ⟨_, _, by rw [row], rfl⟩

theorem opening_ne_closing (j : Json) : j.opening ≠ ']' := by
  cases j with
  | boolean b => cases b <;> simp [opening]
  | _ => simp [opening]

/-- A document starts with no bracket that ends a list. -/
theorem first_ne_closing (layout : Layout) (depth : Nat) (j : Json) :
    ∃ c later, chars layout depth j = c :: later ∧ c ≠ ']' := by
  obtain ⟨c, later, hfirst, hc⟩ := first_chars layout depth j
  refine ⟨c, later, hfirst, ?_⟩
  rintro rfl
  exact j.opening_ne_closing hc.symm

/-- Documents of different kinds have different texts. -/
theorem sameOnlyIf_of_opening_ne {Stop : List Char → Prop} {p : Prop} (layout : Layout)
    (depth : Nat) {j j' : Json} (h : j.opening ≠ j'.opening) :
    SameOnlyIf Stop (chars layout depth j) (chars layout depth j') p := by
  obtain ⟨c, later, hfirst, hc⟩ := first_chars layout depth j
  obtain ⟨c', later', hfirst', hc'⟩ := first_chars layout depth j'
  rw [hfirst, hfirst']
  refine .of_ne ?_
  rintro rfl
  exact h (hc.symm.trans hc')

/-! ### Numbers -/

theorem isNumberChar_of_natural {n : Nat} {c : Char} (h : c ∈ Nat.toDigits 10 n) :
    Number.isNumberChar c = true :=
  Number.isNumberChar_of_isDigit (Nat.isDigit_of_mem_toDigits (by decide) (by decide) h)

theorem natural_sameOnlyIf (n m : Nat) :
    SameOnlyIf (Ends Number.isNumberChar) (Nat.toDigits 10 n) (Nat.toDigits 10 m) (n = m) := by
  have hclass := SameOnlyIf.of_class (a := Nat.toDigits 10 n) (b := Nat.toDigits 10 m)
    (fun _ hc => isNumberChar_of_natural hc) fun _ hc => isNumberChar_of_natural hc
  refine hclass.imp fun hdigits => ?_
  rw [← Nat.ofDigitChars_ten_toDigits (n := n), hdigits, Nat.ofDigitChars_ten_toDigits]

theorem number_sameOnlyIf {x y : Float} (hx : Number.isFinite x = true)
    (hy : Number.isFinite y = true) :
    SameOnlyIf (Ends Number.isNumberChar) (Number.shortestText pointRange x).toList
      (Number.shortestText pointRange y).toList (x = y) := by
  have hclass := SameOnlyIf.of_class (a := (Number.shortestText pointRange x).toList)
    (b := (Number.shortestText pointRange y).toList)
    (fun _ hc => Number.isNumberChar_of_shortestText hc)
    fun _ hc => Number.isNumberChar_of_shortestText hc
  exact hclass.imp fun htext => Number.shortestText_injective hx hy (String.toList_inj.mp htext)

/-- A whole number that is counted has no point and no exponent, and any other number has one. -/
theorem natural_ne_number (n : Nat) (x : Float) :
    Nat.toDigits 10 n ≠ (Number.shortestText pointRange x).toList := by
  intro htext
  refine Number.shortestText_not_allDigits pointRange x fun c hc => ?_
  rw [← htext] at hc
  exact Nat.isDigit_of_mem_toDigits (by decide) (by decide) hc

theorem natural_number_apart {p : Prop} (n : Nat) (x : Float) :
    SameOnlyIf (Ends Number.isNumberChar) (Nat.toDigits 10 n)
      (Number.shortestText pointRange x).toList p := by
  have hclass := SameOnlyIf.of_class (a := Nat.toDigits 10 n)
    (b := (Number.shortestText pointRange x).toList) (fun _ hc => isNumberChar_of_natural hc)
    fun _ hc => Number.isNumberChar_of_shortestText hc
  exact hclass.imp fun htext => absurd htext (natural_ne_number n x)

/-! ### All documents -/

theorem member_sameOnlyIf {layout : Layout} {depth : Nat} {member member' : String × Json}
    (h : SameOnlyIf (Ends Number.isNumberChar) (chars layout depth member.2)
      (chars layout depth member'.2) (member.2 = member'.2)) :
    SameOnlyIf (Ends Number.isNumberChar) (memberChars layout depth member)
      (memberChars layout depth member') (member = member') := by
  have hmember := (quoted_sameOnlyIf member.1 member'.1).append
    (fun _ => (h.behind layout.afterColon).cons (c := ':')) (fun _ _ => trivial) fun _ _ => trivial
  exact hmember.imp fun ⟨hkey, hvalue⟩ => Prod.ext hkey hvalue

/-- **A document is known from its text**, in either layout and with anything behind it that ends a
number, by induction on the document. -/
theorem chars_sameOnlyIf (layout : Layout) {j : Json} (h : j.Finite) :
    ∀ {j' : Json}, j'.Finite → ∀ depth, SameOnlyIf (Ends Number.isNumberChar)
      (chars layout depth j) (chars layout depth j') (j = j') := by
  induction h with
  | null =>
    intro j' h' depth
    cases h' with
    | null => exact .self rfl
    | _ => exact sameOnlyIf_of_opening_ne layout depth (by simp [opening])
  | yes =>
    intro j' h' depth
    cases h' with
    | yes => exact .self rfl
    | _ => exact sameOnlyIf_of_opening_ne layout depth (by simp [opening])
  | no =>
    intro j' h' depth
    cases h' with
    | no => exact .self rfl
    | _ => exact sameOnlyIf_of_opening_ne layout depth (by simp [opening])
  | natural n =>
    intro j' h' depth
    cases h' with
    | natural m =>
        rw [chars, chars]
        exact (natural_sameOnlyIf n m).imp (congrArg natural)
    | @number y _ =>
        rw [chars, chars]
        exact natural_number_apart n y
    | _ => exact sameOnlyIf_of_opening_ne layout depth (by simp [opening])
  | @number x hx =>
    intro j' h' depth
    cases h' with
    | natural m =>
        rw [chars, chars]
        exact (natural_number_apart m x).symm
    | number hy =>
        rw [chars, chars]
        exact (number_sameOnlyIf hx hy).imp (congrArg number)
    | _ => exact sameOnlyIf_of_opening_ne layout depth (by simp [opening])
  | text s =>
    intro j' h' depth
    cases h' with
    | text s' =>
        rw [chars, chars]
        exact ((quoted_sameOnlyIf s s').mono fun _ _ => trivial).imp (congrArg text)
    | _ => exact sameOnlyIf_of_opening_ne layout depth (by simp [opening])
  | @list items hitems ih =>
    intro j' h' depth
    cases h' with
    | @list items' hitems' =>
        rw [chars_list, chars_list]
        have hrow := row_sameOnlyIf layout depth '[' isClosing_list
          (fun item _ => first_ne_closing layout (depth + 1) item)
          fun item hitem item' hitem' => ih item hitem (hitems' item' hitem') (depth + 1)
        exact (hrow.mono fun _ _ => trivial).imp (congrArg list)
    | _ => exact sameOnlyIf_of_opening_ne layout depth (by simp [opening])
  | @object members hmembers ih =>
    intro j' h' depth
    cases h' with
    | @object members' hmembers' =>
        rw [chars_object, chars_object]
        have hrow := row_sameOnlyIf layout depth '\x7b' isClosing_object
          (fun member _ => ⟨'"', _, rfl, by decide⟩)
          fun member hmember member' hmember' => member_sameOnlyIf
            (ih member hmember (hmembers' member' hmember') (depth + 1))
        exact (hrow.mono fun _ _ => trivial).imp (congrArg object)
    | _ => exact sameOnlyIf_of_opening_ne layout depth (by simp [opening])

variable {j j' : Json}

/-- Different documents have different texts. -/
theorem eq_of_chars_eq (layout : Layout) (h : j.Finite) (h' : j'.Finite)
    (heq : chars layout 0 j = chars layout 0 j') : j = j' := by
  have hnil := ends_nil Number.isNumberChar
  exact (chars_sameOnlyIf layout h h' 0 [] [] hnil hnil (by rw [heq])).1

/-- **Different documents have different texts on one line.** -/
theorem compact_injective (h : j.Finite) (h' : j'.Finite) (heq : j.compact = j'.compact) :
    j = j' := by
  refine eq_of_chars_eq .oneLine h h' ?_
  rw [← toList_compact, ← toList_compact, heq]

/-- **Different documents have different texts on many lines.** -/
theorem indented_injective (h : j.Finite) (h' : j'.Finite) (heq : j.indented = j'.indented) :
    j = j' := by
  refine eq_of_chars_eq .manyLines h h' ?_
  rw [← toList_indentedAt, ← toList_indentedAt]
  exact congrArg String.toList heq

end Lox.Json

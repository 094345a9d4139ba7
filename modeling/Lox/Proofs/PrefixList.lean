import Lox.Expr.Render
import Lox.Proofs.Alike
import Lox.Proofs.UniqueText

/-!
# Prefix lists by their text

The text of an expression is made of words and of lists in parentheses, and it is read without a
look at what the words mean. A word is over at a space or a parenthesis, and a list at the
parenthesis that closes it. So if there is neither in a word, then the words and the lists of a text
are known from it; what they are the words and lists of is another matter.
-/

namespace Lox

/-- A word, or a list of a head and of parts. -/
inductive PrefixList where
  | word (chars : List Char)
  | list (head : List Char) (parts : List PrefixList)

namespace PrefixList

mutual

def text : PrefixList → List Char
  | word chars => chars
  | list head parts => '(' :: (head ++ (textOfParts parts ++ [')']))

/-- The texts of the parts, with a space in front of each. -/
def textOfParts : List PrefixList → List Char
  | [] => []
  | part :: parts => ' ' :: part.text ++ textOfParts parts

end

/-- The characters that do not end a word. -/
def isSolid (c : Char) : Bool := c != ' ' && c != '(' && c != ')'

/-- Words and heads with characters that do not end them, and with one at least. -/
inductive Solid : PrefixList → Prop where
  | word {chars : List Char} : chars ≠ [] → (∀ c ∈ chars, isSolid c = true) → Solid (word chars)
  | list {head : List Char} {parts : List PrefixList} :
      (∀ c ∈ head, isSolid c = true) → (∀ part ∈ parts, Solid part) → Solid (list head parts)

theorem textOfParts_eq (parts : List PrefixList) :
    textOfParts parts = SameOnlyIf.parts ' ' [] text parts := by
  induction parts with
  | nil => rfl
  | cons part parts ih =>
    rw [textOfParts, ih]
    rfl

/-- A word starts with no parenthesis. -/
theorem word_apart {Stop : List Char → Prop} {p : Prop} {chars : List Char} (hne : chars ≠ [])
    (hsolid : ∀ c ∈ chars, isSolid c = true) (later : List Char) :
    SameOnlyIf Stop chars ('(' :: later) p := by
  obtain ⟨c, more, rfl⟩ := List.exists_cons_of_ne_nil hne
  refine .of_ne ?_
  rintro rfl
  exact absurd (hsolid '(' (List.mem_cons_self ..)) (by decide)

/-- **The words and lists of a text are known from it**, by induction on the lists. -/
theorem text_sameOnlyIf {a : PrefixList} (h : a.Solid) :
    ∀ {b : PrefixList}, b.Solid → SameOnlyIf (Ends isSolid) a.text b.text (a = b) := by
  induction h with
  | @word chars hne hsolid =>
    intro b h'
    cases h' with
    | word hne' hsolid' =>
        rw [text, text]
        exact (SameOnlyIf.of_class hsolid hsolid').imp (congrArg PrefixList.word)
    | list hhead hparts =>
        rw [text, text]
        exact word_apart hne hsolid _
  | @list head parts hhead hparts ih =>
    intro b h'
    cases h' with
    | word hne' hsolid' =>
        rw [text, text]
        exact (word_apart hne' hsolid' _).symm
    | @list head' parts' hhead' hparts' =>
        have hspace : ∀ later, Ends isSolid (' ' :: later) := ends_cons (by decide)
        have hclosing : ∀ rest, Ends isSolid ([')'] ++ rest) ∧ ([')'] ++ rest).head? ≠ some ' ' :=
          fun rest => ⟨ends_cons (by decide) rest, by rw [List.singleton_append]; simp⟩
        -- a head is followed by a space or by the closing parenthesis
        have hends : ∀ (parts : List PrefixList) (rest : List Char),
            Ends isSolid (SameOnlyIf.parts ' ' [] text parts ++ [')'] ++ rest) := by
          intro parts rest
          cases parts with
          | nil => exact (hclosing rest).1
          | cons part parts => exact hspace _
        have hall := SameOnlyIf.of_parts [] hspace fun part hpart part' hpart' =>
          ih part hpart (hparts' part' hpart')
        have hlist := (SameOnlyIf.of_class hhead hhead').append
          (fun _ => hall.before [')'] fun rest (_ : Ends isSolid rest) => hclosing rest)
          (fun rest _ => hends parts rest) fun rest _ => hends parts' rest
        rw [text, text, textOfParts_eq, textOfParts_eq]
        refine hlist.cons.imp ?_
        rintro ⟨rfl, hsame⟩
        rw [List.forall₂_eq_eq_eq] at hsame
        rw [hsame]

theorem eq_of_text_eq {a b : PrefixList} (ha : a.Solid) (hb : b.Solid) (h : a.text = b.text) :
    a = b :=
  (text_sameOnlyIf ha hb [] [] (ends_nil _) (ends_nil _) (by rw [h])).1

end PrefixList

/-! ## The lists of an expression -/

namespace Expr

mutual

/-- The words and lists of an expression. -/
def toPrefix : Expr → PrefixList
  | assign target _ value => .list ['='] [.word target.lexeme.toList, value.toPrefix]
  | binary left operator right =>
    .list operator.lexeme.toList [left.toPrefix, right.toPrefix]
  | call callee arguments =>
    .list "call".toList (callee.toPrefix :: toPrefixList arguments)
  | get object name => .list ['.'] [object.toPrefix, .word name.lexeme.toList]
  | grouping inner => .list "group".toList [inner.toPrefix]
  | literal value => .word value.text.toList
  | logical left operator right =>
    .list operator.lexeme.toList [left.toPrefix, right.toPrefix]
  | set object name value =>
    .list ['='] [.list ['.'] [object.toPrefix, .word name.lexeme.toList], value.toPrefix]
  | unary operator right => .list operator.lexeme.toList [right.toPrefix]
  | var name => .word name.lexeme.toList

def toPrefixList : List Expr → List PrefixList
  | [] => []
  | e :: es => e.toPrefix :: toPrefixList es

end

mutual

theorem toList_render : ∀ e : Expr, e.render.toList = e.toPrefix.text
  | assign target operator value => by
      simp [render, parenthesized, toPrefix, PrefixList.text, PrefixList.textOfParts,
        toList_render value]
  | binary left operator right => by
      simp [render, parenthesized, toPrefix, PrefixList.text, PrefixList.textOfParts,
        toList_render left, toList_render right]
  | call callee arguments => by
      simp [render, parenthesized, toPrefix, PrefixList.text, PrefixList.textOfParts,
        toList_render callee, toList_renderList arguments]
  | get object name => by
      simp [render, parenthesized, toPrefix, PrefixList.text, PrefixList.textOfParts,
        toList_render object]
  | grouping inner => by
      simp [render, parenthesized, toPrefix, PrefixList.text, PrefixList.textOfParts,
        toList_render inner]
  | literal value => rfl
  | logical left operator right => by
      simp [render, parenthesized, toPrefix, PrefixList.text, PrefixList.textOfParts,
        toList_render left, toList_render right]
  | set object name value => by
      simp [render, parenthesized, toPrefix, PrefixList.text, PrefixList.textOfParts,
        toList_render object, toList_render value]
  | unary operator right => by
      simp [render, parenthesized, toPrefix, PrefixList.text, PrefixList.textOfParts,
        toList_render right]
  | var name => rfl

theorem toList_renderList :
    ∀ es : List Expr, (renderList es).toList = PrefixList.textOfParts (toPrefixList es)
  | [] => rfl
  | e :: es => by
      simp [renderList, toPrefixList, PrefixList.textOfParts, toList_render e,
        toList_renderList es]

end

theorem toPrefixList_eq_map (es : List Expr) : toPrefixList es = es.map toPrefix := by
  induction es with
  | nil => rfl
  | cons e es ih => rw [toPrefixList, ih, List.map_cons]

end Expr

end Lox

import Lox.Proofs.DecimalText
import Lox.Proofs.FaithfulJson
import Lox.Proofs.LayoutFree
import Lox.Proofs.PrefixList

/-!
# What a printed tree shows

The text of a tree shows its nodes, although heads are shared: `-` stands for two kinds of nodes,
`=` for two more, and a variable may be called `call` or `group`. The lists of the text are known
already, so it is left to see which node a list is of. Its head is spelled like a token of one
kind only, and where the head is not enough, the number of parts or the form of the first part
tells the rest.

What is written without a mark of its own is not shown: strings are printed without quotes, and a
number that is not finite as a word, so both are left out here. Of a number only its text is known.
-/

namespace Lox

/-- A value that is no string, and finite if it is a number. -/
def Value.Plain : Value → Prop
  | .string _ => False
  | .number x => Number.isFinite x = true
  | _ => True

/-- The same value, or numbers with the same text. -/
def Value.SameText (v v' : Value) : Prop :=
  v = v' ∨ ∃ x y, v = .number x ∧ v' = .number y ∧ Number.text x = Number.text y

/-! ## The texts of numbers -/

namespace Number

/-- A text that starts like a number and has no other characters. -/
structure LooksLikeNumber (chars : List Char) : Prop where
  first : ∃ c later, chars = c :: later ∧ (c.isDigit = true ∨ c = '-')
  all : ∀ c ∈ chars, isNumberChar c = true

theorem looksLikeNumber_digits {digits : List Char} (h : IsDigits digits) :
    LooksLikeNumber digits := by
  obtain ⟨c, later, rfl⟩ := List.exists_cons_of_ne_nil h.1
  exact ⟨⟨c, later, rfl, Or.inl (h.2 c (List.mem_cons_self ..))⟩,
    fun d hd => isNumberChar_of_isDigit (h.2 d hd)⟩

theorem isDigits_toDigits (n : Nat) : IsDigits (Nat.toDigits 10 n) :=
  ⟨Nat.toDigits_ne_nil, fun _ hc => Nat.isDigit_of_mem_toDigits (by decide) (by decide) hc⟩

theorem allDigits_padded (width n : Nat) : AllDigits (padded width n) :=
  (allDigits_zeros _).append (isDigits_toDigits n).2

theorem LooksLikeNumber.append {chars later : List Char} (h : LooksLikeNumber chars)
    (hlater : ∀ c ∈ later, isNumberChar c = true) : LooksLikeNumber (chars ++ later) := by
  obtain ⟨c, more, rfl, hc⟩ := h.first
  exact ⟨⟨c, more ++ later, rfl, hc⟩, fun d hd => (List.mem_append.mp hd).elim (h.all d) (hlater d)⟩

theorem LooksLikeNumber.signed {chars : List Char} (h : LooksLikeNumber chars) (x : Float) :
    LooksLikeNumber ((sign x).toList ++ chars) := by
  unfold sign
  split
  · exact ⟨⟨'-', chars, rfl, Or.inr rfl⟩, fun d hd => by
      rcases List.mem_cons.mp hd with rfl | hd
      · rfl
      · exact h.all d hd⟩
  · exact h

/-- **The text of a finite number looks like a number.** -/
theorem looksLikeNumber_text {x : Float} (h : isFinite x = true) :
    LooksLikeNumber (text x).toList := by
  unfold text
  rw [if_pos h]
  split
  · exact looksLikeNumber_digits isDigits_zero
  · split
    · rw [wholeText, String.toList_append, String.toList_ofList]
      exact (looksLikeNumber_digits (isDigits_toDigits _)).signed x
    · unfold fixedText
      dsimp only
      rw [String.append_assoc, String.append_assoc, String.toList_append]
      refine LooksLikeNumber.signed ?_ x
      simp only [String.toList_append, String.toList_ofList]
      refine (looksLikeNumber_digits (isDigits_toDigits _)).append fun c hc => ?_
      rcases List.mem_append.mp hc with hc | hc
      · rw [List.mem_singleton.mp hc]
        rfl
      · exact isNumberChar_of_isDigit (allDigits_padded _ _ c hc)

end Number

/-! ## Words -/

open PrefixList (isSolid)

theorem isSolid_of_isNumberChar {c : Char} (h : Number.isNumberChar c = true) :
    isSolid c = true := by
  have hspace : c ≠ ' ' := by rintro rfl; exact absurd h (by decide)
  have hopening : c ≠ '(' := by rintro rfl; exact absurd h (by decide)
  have hclosing : c ≠ ')' := by rintro rfl; exact absurd h (by decide)
  simp [isSolid, hspace, hopening, hclosing]

theorem isSolid_of_isWordPart {c : Char} (h : isWordPart c = true) : isSolid c = true := by
  have hspace : c ≠ ' ' := by rintro rfl; exact absurd h (by decide +kernel)
  have hopening : c ≠ '(' := by rintro rfl; exact absurd h (by decide +kernel)
  have hclosing : c ≠ ')' := by rintro rfl; exact absurd h (by decide +kernel)
  simp [isSolid, hspace, hopening, hclosing]

namespace Token

variable {t t' : Token} {kinds kinds' : List TokenKind}

/-- A token that is no string and no number is an operator or a word. -/
theorem Spelled.operator_or_word (h : t.Spelled) (hkind : t.kind ∉ [.string, .number]) :
    (t.lexeme.toList, t.kind) ∈ operators
      ∨ Form.word.Matches t.lexeme.toList ∧ Form.word.Denotes t.lexeme.toList t.kind t.literal := by
  obtain ⟨form, hmatches, hdenotes⟩ := h
  cases form with
  | operator => exact Or.inl hdenotes.1
  | string => exact absurd (by rw [hdenotes.1]; decide) hkind
  | number => exact absurd (by rw [hdenotes.1]; decide) hkind
  | word => exact Or.inr ⟨hmatches, hdenotes⟩

/-- A lexeme has no parenthesis and no space in it, unless it is one or a string. -/
theorem Spelled.solid (h : t.Spelled)
    (hkind : t.kind ∉ [.string, .number, .leftParen, .rightParen]) :
    t.lexeme.toList ≠ [] ∧ ∀ c ∈ t.lexeme.toList, isSolid c = true := by
  rcases h.operator_or_word (fun hmem => hkind (List.mem_append_left _ hmem)) with
    hoperator | ⟨⟨c, later, hstart, hlater, hchars⟩, _⟩
  · have hall : ∀ o ∈ operators, o.2 ∉ [.string, .number, .leftParen, .rightParen] →
        o.1 ≠ [] ∧ o.1.all isSolid = true := by decide
    obtain ⟨hne, hsolid⟩ := hall _ hoperator hkind
    exact ⟨hne, List.all_eq_true.mp hsolid⟩
  · rw [hchars, List.forall_mem_cons]
    exact ⟨List.cons_ne_nil _ _, isSolid_of_isWordPart (isWordPart_of_isWordStart hstart),
      fun d hd => isSolid_of_isWordPart (hlater d hd)⟩

theorem IsOf.solid (h : t.IsOf kinds)
    (hkinds : ∀ kind ∈ kinds, kind ∉ [.string, .number, .leftParen, .rightParen]) :
    t.lexeme.toList ≠ [] ∧ ∀ c ∈ t.lexeme.toList, isSolid c = true :=
  h.spelled.solid (hkinds _ h.kind)

/-- Tokens with one lexeme are the same but for their lines. -/
theorem IsOf.moved (h : t.IsOf kinds) (h' : t'.IsOf kinds')
    (hlexeme : t.lexeme.toList = t'.lexeme.toList) : t.Moved anyLine t' := by
  have hlexeme := String.toList_inj.mp hlexeme
  obtain ⟨hkind, hliteral⟩ := h.spelled.eq_of_lexeme h'.spelled hlexeme
  exact ⟨hkind, hlexeme, hliteral, trivial⟩

/-- The name of a variable starts like a word, and is not reserved. -/
theorem IsOf.name (h : t.IsOf [.identifier]) :
    (∃ c later, t.lexeme.toList = c :: later ∧ isWordStart c = true)
      ∧ TokenKind.keyword? t.lexeme = none := by
  have hkind := List.mem_singleton.mp h.kind
  rcases h.spelled.operator_or_word (by rw [hkind]; decide) with
    hoperator | ⟨⟨c, later, hstart, _, hchars⟩, hkeyword, _⟩
  · have hnone : ∀ o ∈ operators, o.2 ≠ .identifier := by decide
    exact absurd hkind (hnone _ hoperator)
  · rw [if_pos hkind, String.ofList_toList] at hkeyword
    exact ⟨⟨c, later, hchars, hstart⟩, hkeyword⟩

/-- There is one way to write the operator of an assignment. -/
theorem IsOf.equal (h : t.IsOf [.equal]) : t.lexeme.toList = ['='] := by
  have hkind := List.mem_singleton.mp h.kind
  rcases h.spelled.operator_or_word (by rw [hkind]; decide) with hoperator | ⟨_, hkeyword, _⟩
  · have hone : ∀ o ∈ operators, o.2 = .equal → o.1 = ['='] := by decide
    exact hone _ hoperator hkind
  · rw [hkind] at hkeyword
    unfold TokenKind.keyword? at hkeyword
    split at hkeyword <;> cases hkeyword

end Token

namespace Value

variable {v v' : Value}

/-- A value without quotes is a reserved word, or looks like a number. -/
theorem Plain.text_cases (h : v.Plain) :
    ((TokenKind.keyword? v.text).isSome ∧ ∀ x, v ≠ .number x)
      ∨ ∃ x, v = .number x ∧ Number.LooksLikeNumber v.text.toList := by
  cases v with
  | nil => exact Or.inl ⟨rfl, nofun⟩
  | boolean b => cases b <;> exact Or.inl ⟨rfl, nofun⟩
  | number x => exact Or.inr ⟨x, rfl, Number.looksLikeNumber_text h⟩
  | string s => cases h

/-- No reserved word looks like a number. -/
theorem not_looksLikeNumber_of_keyword {word : String} (h : (TokenKind.keyword? word).isSome) :
    ¬Number.LooksLikeNumber word.toList := by
  have hstart : ∃ c later, word.toList = c :: later ∧ isWordStart c = true ∧ c ≠ '-' := by
    unfold TokenKind.keyword? at h
    split at h <;> first | exact ⟨_, _, rfl, by decide +kernel, by decide⟩ | cases h
  rintro ⟨⟨c, later, hchars, hc⟩, _⟩
  obtain ⟨c', later', hchars', hstart, hminus⟩ := hstart
  rw [hchars] at hchars'
  cases hchars'
  rcases hc with hc | hc
  · rw [isWordStart_of_isDigit hc] at hstart
    cases hstart
  · exact hminus hc

/-- **Values without quotes are known from their texts**, but that some numbers share a text. -/
theorem Plain.sameText (h : v.Plain) (h' : v'.Plain) (heq : v.text = v'.text) : v.SameText v' := by
  rcases h.text_cases with ⟨hword, hne⟩ | ⟨x, rfl, hnumber⟩
  · rcases h'.text_cases with ⟨_, hne'⟩ | ⟨y, rfl, hnumber'⟩
    · left
      cases v with
      | number x => exact absurd rfl (hne x)
      | string s => cases h
      | nil =>
          cases v' with
          | number y => exact absurd rfl (hne' y)
          | string s => cases h'
          | nil => rfl
          | boolean b => cases b <;> simp [text] at heq
      | boolean b =>
          cases v' with
          | number y => exact absurd rfl (hne' y)
          | string s => cases h'
          | nil => cases b <;> simp [text] at heq
          | boolean b' => cases b <;> cases b' <;> first | rfl | simp [text] at heq
    · rw [← heq] at hnumber'
      exact absurd hnumber' (not_looksLikeNumber_of_keyword hword)
  · rcases h'.text_cases with ⟨hword', _⟩ | ⟨y, rfl, _⟩
    · rw [heq] at hnumber
      exact absurd hnumber (not_looksLikeNumber_of_keyword hword')
    · exact Or.inr ⟨x, y, rfl, rfl, heq⟩

/-- The text of such a value is a word. -/
theorem Plain.solid (h : v.Plain) :
    v.text.toList ≠ [] ∧ ∀ c ∈ v.text.toList, isSolid c = true := by
  cases v with
  | nil => exact ⟨by simp [text], List.all_eq_true.mp rfl⟩
  | boolean b => cases b <;> exact ⟨by simp [text], List.all_eq_true.mp rfl⟩
  | number x =>
      have hlooks := Number.looksLikeNumber_text h
      obtain ⟨c, later, hchars, _⟩ := hlooks.first
      exact ⟨by rw [text, hchars]; exact List.cons_ne_nil _ _,
        fun c hc => isSolid_of_isNumberChar (hlooks.all c hc)⟩
  | string s => cases h

/-- The text of such a value is not the name of a variable. -/
theorem Plain.ne_name (h : v.Plain) {t : Token} (ht : t.IsOf [.identifier]) :
    v.text.toList ≠ t.lexeme.toList := by
  intro heq
  obtain ⟨⟨c, later, hchars, hstart⟩, hkeyword⟩ := ht.name
  rcases h.text_cases with ⟨hword, _⟩ | ⟨x, rfl, hnumber⟩
  · rw [String.toList_inj.mp heq, hkeyword] at hword
    cases hword
  · obtain ⟨c', later', hchars', hc⟩ := hnumber.first
    rw [heq, hchars] at hchars'
    cases hchars'
    rcases hc with hc | rfl
    · rw [isWordStart_of_isDigit hc] at hstart
      cases hstart
    · exact absurd hstart (by decide +kernel)

end Value

/-! ## Heads -/

namespace TokenKind

/-- No operator and no name is a string, a number or a parenthesis. -/
theorem node_kinds_solid :
    (∀ kind ∈ [identifier], kind ∉ [string, number, leftParen, rightParen])
      ∧ (∀ kind ∈ betweens, kind ∉ [string, number, leftParen, rightParen])
      ∧ (∀ kind ∈ choices, kind ∉ [string, number, leftParen, rightParen])
      ∧ ∀ kind ∈ signs, kind ∉ [string, number, leftParen, rightParen] := by decide

end TokenKind

namespace Expr

/-- A token that is spelled like the head of the list, if the node is shown as a list. -/
def head? : Expr → Option Token
  | assign _ _ _ => some (Token.plain .equal "=" 0)
  | binary _ operator _ => some operator
  | call _ _ => some (Token.plain .identifier "call" 0)
  | get _ _ => some (Token.plain .dot "." 0)
  | grouping _ => some (Token.plain .identifier "group" 0)
  | literal _ => none
  | logical _ operator _ => some operator
  | set _ _ _ => some (Token.plain .equal "=" 0)
  | unary operator _ => some operator
  | var _ => none

/-- What stands behind the head. -/
def items : Expr → List PrefixList
  | assign target _ value => [.word target.lexeme.toList, value.toPrefix]
  | binary left _ right => [left.toPrefix, right.toPrefix]
  | call callee arguments => callee.toPrefix :: toPrefixList arguments
  | get object name => [object.toPrefix, .word name.lexeme.toList]
  | grouping inner => [inner.toPrefix]
  | literal _ => []
  | logical left _ right => [left.toPrefix, right.toPrefix]
  | set object name value =>
    [.list ['.'] [object.toPrefix, .word name.lexeme.toList], value.toPrefix]
  | unary _ right => [right.toPrefix]
  | var _ => []

theorem toPrefix_of_head {e : Expr} {t : Token} (h : e.head? = some t) :
    e.toPrefix = .list t.lexeme.toList e.items := by
  cases e <;> cases h <;> rfl

theorem toPrefix_of_no_head {e : Expr} (h : e.head? = none) :
    ∃ chars, e.toPrefix = .word chars := by
  cases e <;> cases h <;> exact ⟨_, rfl⟩

/-- The form of the node with a head of this kind and with these items. -/
def formOf (kind : TokenKind) (lexeme : String) (items : List PrefixList) : String :=
  match kind, items with
  | .equal, .word _ :: _ => "assign"
  | .equal, _ => "set"
  | .dot, _ => "get"
  | .identifier, _ => if lexeme = "call" then "call" else "grouping"
  | _, [_] => "unary"
  | .orWord, _ => "logical"
  | .andWord, _ => "logical"
  | _, _ => "binary"

/-- **The head and the items of a node tell its form.** -/
theorem Written.form_of_head {e : Expr} (h : e.Written) {t : Token} (hhead : e.head? = some t) :
    t.Spelled ∧ e.form = formOf t.kind t.lexeme e.items := by
  have hoperator : ∀ {chars : List Char} {kind : TokenKind} {lexeme : String},
      lexeme.toList = chars → (chars, kind) ∈ operators → (Token.plain kind lexeme 0).Spelled :=
    fun hchars hmem => ⟨.operator, ⟨_, hchars ▸ hmem⟩, hchars ▸ hmem, rfl⟩
  cases h with
  | assign _ _ _ =>
      cases hhead
      exact ⟨hoperator rfl (by decide), rfl⟩
  | binary _ ho _ =>
      cases hhead
      refine ⟨ho.spelled, ?_⟩
      have hkind := ho.kind
      revert hkind
      cases t.kind <;> simp [TokenKind.betweens, formOf, form, items]
  | call _ _ =>
      cases hhead
      refine ⟨⟨.word, ⟨'c', "all".toList, by decide +kernel, ?_, rfl⟩, rfl, rfl⟩, rfl⟩
      exact List.all_eq_true.mp (by decide +kernel)
  | get _ _ =>
      cases hhead
      exact ⟨hoperator rfl (by decide), rfl⟩
  | grouping _ =>
      cases hhead
      refine ⟨⟨.word, ⟨'g', "roup".toList, by decide +kernel, ?_, rfl⟩, rfl, rfl⟩, rfl⟩
      exact List.all_eq_true.mp (by decide +kernel)
  | literal _ => cases hhead
  | logical _ ho _ =>
      cases hhead
      refine ⟨ho.spelled, ?_⟩
      have hkind := ho.kind
      revert hkind
      cases t.kind <;> simp [TokenKind.choices, formOf, form, items]
  | set _ _ _ =>
      cases hhead
      exact ⟨hoperator rfl (by decide), rfl⟩
  | unary ho _ =>
      cases hhead
      refine ⟨ho.spelled, ?_⟩
      have hkind := ho.kind
      revert hkind
      cases t.kind <;> simp [TokenKind.signs, formOf, form, items]
  | var _ => cases hhead

/-- Trees that are shown alike are of one form. -/
theorem Written.form_eq {a b : Expr} (ha : a.Written) (hb : b.Written)
    (hplain : a.LiteralsAre Value.Plain) (hplain' : b.LiteralsAre Value.Plain)
    (h : a.toPrefix = b.toPrefix) : a.form = b.form := by
  cases hhead : a.head? with
  | some t =>
      obtain ⟨hspelled, hform⟩ := ha.form_of_head hhead
      rw [toPrefix_of_head hhead] at h
      cases hhead' : b.head? with
      | some t' =>
          obtain ⟨hspelled', hform'⟩ := hb.form_of_head hhead'
          rw [toPrefix_of_head hhead'] at h
          obtain ⟨hlexeme, hitems⟩ := PrefixList.list.inj h
          have hlexeme := String.toList_inj.mp hlexeme
          obtain ⟨hkind, _⟩ := hspelled.eq_of_lexeme hspelled' hlexeme
          rw [hform, hform', hkind, hlexeme, hitems]
      | none =>
          obtain ⟨chars, hword⟩ := toPrefix_of_no_head hhead'
          rw [hword] at h
          cases h
  | none =>
      cases hhead' : b.head? with
      | some t' =>
          obtain ⟨chars, hword⟩ := toPrefix_of_no_head hhead
          rw [hword, toPrefix_of_head hhead'] at h
          cases h
      | none =>
          -- both are words, and no value is written like a name
          cases ha with
          | literal _ =>
              cases hb with
              | literal _ => rfl
              | var hn => exact absurd (PrefixList.word.inj h) (hplain.literal.ne_name hn)
              | _ => cases hhead'
          | var hn =>
              cases hb with
              | literal _ =>
                  exact absurd (PrefixList.word.inj h).symm (hplain'.literal.ne_name hn)
              | var _ => rfl
              | _ => cases hhead'
          | _ => cases hhead

/-- The words of a tree have no spaces and no parentheses in them, by induction on its parts. -/
theorem Written.solid {e : Expr} (h : e.Written) (hplain : e.LiteralsAre Value.Plain) :
    e.toPrefix.Solid := by
  obtain ⟨hnames, hbetweens, hchoices, hsigns⟩ := TokenKind.node_kinds_solid
  have hname : ∀ {name : Token}, name.IsOf [.identifier] →
      (PrefixList.word name.lexeme.toList).Solid := by
    intro name hn
    obtain ⟨hne, hsolid⟩ := hn.solid hnames
    exact .word hne hsolid
  have htwo : ∀ {head : List Char} {first second : PrefixList}, head.all isSolid = true →
      first.Solid → second.Solid → (PrefixList.list head [first, second]).Solid := by
    intro head first second hhead hfirst hsecond
    refine .list (List.all_eq_true.mp hhead) ?_
    rw [List.forall_mem_cons, List.forall_mem_singleton]
    exact ⟨hfirst, hsecond⟩
  have hone : ∀ {head : List Char} {first : PrefixList}, head.all isSolid = true →
      first.Solid → (PrefixList.list head [first]).Solid := by
    intro head first hhead hfirst
    refine .list (List.all_eq_true.mp hhead) ?_
    rw [List.forall_mem_singleton]
    exact hfirst
  induction e using parts_induction with
  | step e ih =>
    have hpart : ∀ part ∈ e.parts, part.toPrefix.Solid :=
      fun part hp => ih part hp (h.part hp) (hplain.part hp)
    cases h with
    | @assign target operator value ht _ _ =>
        exact htwo rfl (hname ht) (hpart value (by simp [parts]))
    | @binary left right operator _ ho _ =>
        exact htwo (List.all_eq_true.mpr (ho.solid hbetweens).2) (hpart left (by simp [parts]))
          (hpart right (by simp [parts]))
    | @call callee arguments _ _ =>
        refine .list (List.all_eq_true.mp (by decide)) ?_
        rw [← toPrefixList, toPrefixList_eq_map, List.forall_mem_map]
        exact hpart
    | @get object name _ hn => exact htwo rfl (hpart object (by simp [parts])) (hname hn)
    | @grouping inner _ => exact hone (by decide) (hpart inner (by simp [parts]))
    | literal _ =>
        obtain ⟨hne, hsolid⟩ := hplain.literal.solid
        exact .word hne hsolid
    | @logical left right operator _ ho _ =>
        exact htwo (List.all_eq_true.mpr (ho.solid hchoices).2) (hpart left (by simp [parts]))
          (hpart right (by simp [parts]))
    | @set object value name _ hn _ =>
        exact htwo rfl (htwo rfl (hpart object (by simp [parts])) (hname hn))
          (hpart value (by simp [parts]))
    | @unary operator right ho _ =>
        exact hone (List.all_eq_true.mpr (ho.solid hsigns).2) (hpart right (by simp [parts]))
    | var hn => exact hname hn

/-- **Trees that are shown by the same words and lists are alike**, by induction on their parts. -/
theorem Written.alike_of_toPrefix {a b : Expr} (ha : a.Written) (hb : b.Written)
    (hplain : a.LiteralsAre Value.Plain) (hplain' : b.LiteralsAre Value.Plain)
    (h : a.toPrefix = b.toPrefix) : a.Alike (Token.Moved anyLine) Value.SameText b := by
  induction a using parts_induction generalizing b with
  | step a ih =>
    -- parts in the same place are shown by the same words and lists
    have hpart : ∀ part ∈ a.parts, ∀ part' ∈ b.parts, part.toPrefix = part'.toPrefix →
        part.Alike (Token.Moved anyLine) Value.SameText part' :=
      fun part hp part' hp' => ih part hp (ha.part hp) (hb.part hp') (hplain.part hp)
        (hplain'.part hp')
    have hform := ha.form_eq hb hplain hplain' h
    cases ha with
    | @assign target operator value ht ho _ =>
        cases hb with
        | @assign target' operator' value' ht' ho' _ =>
            simp only [toPrefix, PrefixList.list.injEq, List.cons.injEq, PrefixList.word.injEq,
              true_and, and_true] at h
            obtain ⟨htarget, hvalue⟩ := h
            exact .assign (ht.moved ht' htarget) (ho.moved ho' (ho.equal.trans ho'.equal.symm))
              (hpart value (by simp [parts]) value' (by simp [parts]) hvalue)
        | _ => simp [form] at hform
    | @binary left right operator _ ho _ =>
        cases hb with
        | @binary left' right' operator' _ ho' _ =>
            simp only [toPrefix, PrefixList.list.injEq, List.cons.injEq, and_true] at h
            obtain ⟨hoperator, hleft, hright⟩ := h
            exact .binary (hpart left (by simp [parts]) left' (by simp [parts]) hleft)
              (ho.moved ho' hoperator)
              (hpart right (by simp [parts]) right' (by simp [parts]) hright)
        | _ => simp [form] at hform
    | @call callee arguments _ _ =>
        cases hb with
        | @call callee' arguments' _ _ =>
            simp only [toPrefix, PrefixList.list.injEq, List.cons.injEq, true_and] at h
            obtain ⟨hcallee, harguments⟩ := h
            rw [toPrefixList_eq_map, toPrefixList_eq_map] at harguments
            exact .call (hpart callee (by simp [parts]) callee' (by simp [parts]) hcallee)
              (alikeList_of_map_eq harguments fun a ha a' ha' =>
                hpart a (List.mem_cons_of_mem _ ha) a' (List.mem_cons_of_mem _ ha'))
        | _ => simp [form] at hform
    | @get object name _ hn =>
        cases hb with
        | @get object' name' _ hn' =>
            simp only [toPrefix, PrefixList.list.injEq, List.cons.injEq, PrefixList.word.injEq,
              true_and, and_true] at h
            obtain ⟨hobject, hname⟩ := h
            exact .get (hpart object (by simp [parts]) object' (by simp [parts]) hobject)
              (hn.moved hn' hname)
        | _ => simp [form] at hform
    | @grouping inner _ =>
        cases hb with
        | @grouping inner' _ =>
            simp only [toPrefix, PrefixList.list.injEq, List.cons.injEq, true_and, and_true] at h
            exact .grouping (hpart inner (by simp [parts]) inner' (by simp [parts]) h)
        | _ => simp [form] at hform
    | literal _ =>
        cases hb with
        | literal _ =>
            have htext := String.toList_inj.mp (PrefixList.word.inj h)
            exact .literal (hplain.literal.sameText hplain'.literal htext)
        | _ => simp [form] at hform
    | @logical left right operator _ ho _ =>
        cases hb with
        | @logical left' right' operator' _ ho' _ =>
            simp only [toPrefix, PrefixList.list.injEq, List.cons.injEq, and_true] at h
            obtain ⟨hoperator, hleft, hright⟩ := h
            exact .logical (hpart left (by simp [parts]) left' (by simp [parts]) hleft)
              (ho.moved ho' hoperator)
              (hpart right (by simp [parts]) right' (by simp [parts]) hright)
        | _ => simp [form] at hform
    | @set object value name _ hn _ =>
        cases hb with
        | @set object' value' name' _ hn' _ =>
            simp only [toPrefix, PrefixList.list.injEq, List.cons.injEq, PrefixList.word.injEq,
              true_and, and_true] at h
            obtain ⟨⟨hobject, hname⟩, hvalue⟩ := h
            exact .set (hpart object (by simp [parts]) object' (by simp [parts]) hobject)
              (hn.moved hn' hname)
              (hpart value (by simp [parts]) value' (by simp [parts]) hvalue)
        | _ => simp [form] at hform
    | @unary operator right ho _ =>
        cases hb with
        | @unary operator' right' ho' _ =>
            simp only [toPrefix, PrefixList.list.injEq, List.cons.injEq, and_true] at h
            obtain ⟨hoperator, hright⟩ := h
            exact .unary (ho.moved ho' hoperator)
              (hpart right (by simp [parts]) right' (by simp [parts]) hright)
        | _ => simp [form] at hform
    | var hn =>
        cases hb with
        | var hn' => exact .var (hn.moved hn' (PrefixList.word.inj h))
        | _ => simp [form] at hform

end Expr

/--
**The text of a tree shows its structure.**

Two texts parse, with no string among their literals and with finite numbers. If their trees are
printed as the same text, then the trees have the same nodes in the same places, with the same
operators and names and with as many arguments in each call; their tokens differ in nothing but the
lines, and their values are the same but for numbers that are printed alike.
-/
theorem printing_shows_structure {text text' : String} {e e' : Expr} (h : parse text = .ok e)
    (h' : parse text' = .ok e') (hplain : e.LiteralsAre Value.Plain)
    (hplain' : e'.LiteralsAre Value.Plain) (hrender : e.render = e'.render) :
    e.Alike (Token.Moved anyLine) Value.SameText e' := by
  have hwritten := parse_written h
  have hwritten' := parse_written h'
  have htext : e.toPrefix.text = e'.toPrefix.text := by
    rw [← e.toList_render, ← e'.toList_render, hrender]
  have hprefix := PrefixList.eq_of_text_eq (hwritten.solid hplain) (hwritten'.solid hplain') htext
  exact hwritten.alike_of_toPrefix hwritten' hplain hplain' hprefix

/-- Two numbers that are printed alike, behind signs on different lines. -/
theorem printing_shows_structure_sign :
    let sign (line : Nat) : Token := ⟨.minus, "-", none, line⟩
    let number (fraction : String) : Value := .number (Number.ofDigits ['0'] fraction.toList)
    let e : Expr := .unary (sign 1) (.literal (number "1234561"))
    let e' : Expr := .unary (sign 2) (.literal (number "1234562"))
    parse "-0.1234561" = .ok e ∧ parse "\n- 0.1234562" = .ok e' ∧ e.render = "(- 0.123456)"
      ∧ e'.render = "(- 0.123456)" ∧ e.Alike (Token.Moved anyLine) Value.SameText e' := by
  intro sign number e e'
  have hscan : Scan.ofText "-0.1234561"
      = ⟨[sign 1, ⟨.number, "0.1234561", some (number "1234561"), 1⟩], .finished 1⟩ := rfl
  have hscan' : Scan.ofText "\n- 0.1234562"
      = ⟨[sign 2, ⟨.number, "0.1234562", some (number "1234562"), 2⟩], .finished 2⟩ := rfl
  have hparse : parse "-0.1234561" = .ok e := parse_of_scan hscan rfl
  have hparse' : parse "\n- 0.1234562" = .ok e' := parse_of_scan hscan' rfl
  have hrender : e.render = "(- 0.123456)" := by decide +kernel
  have hrender' : e'.render = "(- 0.123456)" := by decide +kernel
  have hplain : e.LiteralsAre Value.Plain := by
    intro v hv
    simp only [e, Expr.nodes, List.mem_cons, reduceCtorEq, Expr.literal.injEq, List.not_mem_nil,
      or_false, false_or] at hv
    subst hv
    show Number.isFinite _ = true
    decide +kernel
  have hplain' : e'.LiteralsAre Value.Plain := by
    intro v hv
    simp only [e', Expr.nodes, List.mem_cons, reduceCtorEq, Expr.literal.injEq, List.not_mem_nil,
      or_false, false_or] at hv
    subst hv
    show Number.isFinite _ = true
    decide +kernel
  exact ⟨hparse, hparse', hrender, hrender',
    printing_shows_structure hparse hparse' hplain hplain' (hrender.trans hrender'.symm)⟩

end Lox

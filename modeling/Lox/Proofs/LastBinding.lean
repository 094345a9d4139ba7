import Lox.Proofs.BoundNames

/-!
# What an environment remembers

A name is bound in two ways, and only one of them can make it known. So what does an environment
that was empty at first answer, after any operations? It depends on these operations alone: on
whether one of them was a definition of the name, and on the last of them that bound it. That is a
definition or an assignment, but not an assignment that came before all definitions of its name.

`Due` says which answer is due by the operations so far, without an environment. `Remembers` is what
carries this along: the environment knows the names that were defined, and finds for each of them
what was bound to it last.
-/

namespace Lox.Environment

/-! ## Operations and their answers -/

/-- What can be done with an environment. -/
inductive Operation where
  | define (name : String) (object : Object)
  | assign (name : Token) (object : Object)
  | get (name : Token)
  | contains (name : String)

/-- What an operation gives. -/
inductive Answer where
  | done
  | found (object : Object)
  | whether (known : Bool)
  | failed (error : RuntimeError)

/-- Carries out an operation. -/
def perform (env : Environment) : Operation → Answer × Environment
  | .define name object => (.done, env.define name object)
  | .assign name object =>
    match env.assign name object with
    | .ok env' => (.done, env')
    | .error error => (.failed error, env)
  | .get name =>
    match env.get name with
    | .ok object => (.found object, env)
    | .error error => (.failed error, env)
  | .contains name => (.whether (env.contains name), env)

/-- The environment behind some operations. -/
def after (env : Environment) : List Operation → Environment
  | [] => env
  | op :: ops => after (env.perform op).2 ops

/-- The answers to some operations, each carried out behind the one before it. -/
def answers (env : Environment) : List Operation → List Answer
  | [] => []
  | op :: ops => (env.perform op).1 :: answers (env.perform op).2 ops

variable {env : Environment} {ops later : List Operation} {op : Operation} {answer : Answer}

theorem length_answers : (env.answers ops).length = ops.length := by
  induction ops generalizing env with
  | nil => rfl
  | cons op ops ih => rw [answers, List.length_cons, List.length_cons, ih]

theorem answers_append :
    env.answers (ops ++ later) = env.answers ops ++ (env.after ops).answers later := by
  induction ops generalizing env with
  | nil => rfl
  | cons op ops ih => rw [List.cons_append, answers, answers, ih, after, List.cons_append]

section

variable {name : Token} {object : Object}

theorem perform_assign_of_contains (h : env.contains name.lexeme = true) :
    env.perform (.assign name object) = (.done, env.define name.lexeme object) := by
  rw [perform, assign, if_pos h]

theorem perform_assign_of_not_contains (h : ¬env.contains name.lexeme = true) :
    env.perform (.assign name object)
      = (.failed (.undefinedVariable name.lexeme name.line), env) := by
  rw [perform, assign, if_neg h]

theorem perform_get_of_find? (h : env.find? name.lexeme = some object) :
    env.perform (.get name) = (.found object, env) := by
  rw [perform, get, h]

theorem perform_get_of_not_contains (h : ¬env.contains name.lexeme = true) :
    env.perform (.get name) = (.failed (.undefinedVariable name.lexeme name.line), env) := by
  have hnone : env.find? name.lexeme = none := by
    rwa [← Option.isNone_iff_eq_none, ← Option.not_isSome, Bool.not_eq_true', ← Bool.not_eq_true]
  rw [perform, get, hnone]

end

/-! ## What is due by the operations so far -/

/-- One of the operations defines the name. -/
def Defined (ops : List Operation) (name : String) : Prop :=
  ∃ object, Operation.define name object ∈ ops

/-- Behind these operations, the next one binds the name to the object: it defines the name, or
assigns to it when it has been defined. Of a token, only the lexeme matters. -/
inductive Binds (ops : List Operation) (name : String) (object : Object) : Operation → Prop where
  | define : Binds ops name object (.define name object)
  | assign {token : Token} : token.lexeme = name → Defined ops name →
      Binds ops name object (.assign token object)

/-- One of the operations binds the name to the object, and none behind it binds the name. -/
def LastBound (ops : List Operation) (name : String) (object : Object) : Prop :=
  ∃ earlier op later, ops = earlier ++ op :: later ∧ Binds earlier name object op
    ∧ ∀ between next rest other, later = between ++ next :: rest →
        ¬Binds (earlier ++ op :: between) name other next

/-- The answer that an operation has to be given behind these. -/
inductive Due (ops : List Operation) : Operation → Answer → Prop where
  | define {name : String} {object : Object} : Due ops (.define name object) .done
  | assign {name : Token} {object : Object} : Defined ops name.lexeme →
      Due ops (.assign name object) .done
  | refuse {name : Token} {object : Object} : ¬Defined ops name.lexeme →
      Due ops (.assign name object) (.failed (.undefinedVariable name.lexeme name.line))
  | get {name : Token} {object : Object} : LastBound ops name.lexeme object →
      Due ops (.get name) (.found object)
  | miss {name : Token} : ¬Defined ops name.lexeme →
      Due ops (.get name) (.failed (.undefinedVariable name.lexeme name.line))
  | known {name : String} : Defined ops name → Due ops (.contains name) (.whether true)
  | unknown {name : String} : ¬Defined ops name → Due ops (.contains name) (.whether false)

/-! ## One operation more -/

theorem defined_concat {name : String} :
    Defined (ops ++ [op]) name ↔ Defined ops name ∨ ∃ object, op = .define name object := by
  unfold Defined
  simp only [List.mem_append, List.mem_singleton, exists_or, eq_comm]

/-- What was bound last is what the last operation binds, or else what was bound last before it. -/
theorem lastBound_concat {name : String} {object : Object} :
    LastBound (ops ++ [op]) name object ↔ Binds ops name object op
      ∨ LastBound ops name object ∧ ∀ other, ¬Binds ops name other op := by
  constructor
  · intro h
    obtain ⟨earlier, first, later, hops, hbinds, hlast⟩ := h
    rcases List.eq_nil_or_concat later with rfl | ⟨between, last, rfl⟩
    · obtain ⟨rfl, hop⟩ := List.append_inj' hops rfl
      cases hop
      exact Or.inl hbinds
    · rw [List.concat_eq_append, ← List.cons_append, ← List.append_assoc] at hops
      obtain ⟨rfl, hop⟩ := List.append_inj' hops rfl
      cases hop
      refine Or.inr ⟨⟨earlier, first, between, rfl, hbinds, fun mid next rest other hmid => ?_⟩,
        fun other => hlast between op [] other (List.concat_eq_append ..)⟩
      refine hlast mid next (rest ++ [op]) other ?_
      rw [hmid, List.concat_eq_append, List.append_assoc, List.cons_append]
  · intro h
    rcases h with hbinds | ⟨⟨earlier, first, later, rfl, hbinds, hlast⟩, hop⟩
    · exact ⟨ops, op, [], rfl, hbinds, fun between next rest other h => by simp at h⟩
    · refine ⟨earlier, first, later ++ [op], by simp, hbinds, fun between next rest other h => ?_⟩
      rcases List.eq_nil_or_concat rest with rfl | ⟨rest, last, rfl⟩
      · obtain ⟨rfl, hnext⟩ := List.append_inj' h rfl
        cases hnext
        exact hop other
      · rw [List.concat_eq_append, ← List.cons_append, ← List.append_assoc] at h
        obtain ⟨rfl, _⟩ := List.append_inj' h rfl
        exact hlast between next rest other rfl

/-! ## The environment behind the operations -/

/-- The environment knows the names that the operations have defined, and finds what they have bound
last. -/
structure Remembers (env : Environment) (ops : List Operation) : Prop where
  contains : ∀ name, env.contains name = true ↔ Defined ops name
  find? : ∀ name object, env.find? name = some object ↔ LastBound ops name object

theorem contains_define (env : Environment) (name other : String) (object : Object) :
    (env.define name object).contains other = (decide (other = name) || env.contains other) :=
  Bindings.contains_put env.bindings name other object

namespace Remembers

theorem empty : Remembers empty [] where
  contains := fun name => by
    refine iff_of_false (fun h => by cases h) fun h => ?_
    obtain ⟨object, hmem⟩ := h
    exact List.not_mem_nil hmem
  find? := fun name object => by
    refine iff_of_false (fun h => by cases h) fun h => ?_
    obtain ⟨earlier, op, later, hops, _⟩ := h
    simp at hops

/-- Without a binding, everything is remembered as before. -/
theorem of_not_binds (h : env.Remembers ops) (hop : ∀ name object, ¬Binds ops name object op) :
    env.Remembers (ops ++ [op]) where
  contains := fun name => by
    rw [h.contains, defined_concat]
    refine ⟨Or.inl, fun hdefined => hdefined.resolve_right fun ⟨object, hdefine⟩ => ?_⟩
    exact hop name object (hdefine ▸ .define)
  find? := fun name object => by
    rw [h.find?, lastBound_concat]
    exact ⟨fun hlast => Or.inr ⟨hlast, hop name⟩,
      fun hlast => hlast.elim (fun hbinds => absurd hbinds (hop name object)) And.left⟩

/-- A name that is bound is remembered with its new object, and the others as before. -/
theorem of_binds (h : env.Remembers ops) {name : String} {object : Object}
    (hop : ∀ other object', Binds ops other object' op ↔ other = name ∧ object' = object)
    (hknown : Defined (ops ++ [op]) name) :
    (env.define name object).Remembers (ops ++ [op]) where
  contains := fun other => by
    rw [contains_define, Bool.or_eq_true, decide_eq_true_iff, h.contains]
    constructor
    · intro hother
      rcases hother with rfl | hdefined
      · exact hknown
      · exact defined_concat.mpr (Or.inl hdefined)
    · intro hdefined
      rcases defined_concat.mp hdefined with hdefined | ⟨object', rfl⟩
      · exact Or.inr hdefined
      · exact Or.inl ((hop other object').mp .define).1
  find? := fun other object' => by
    rw [find?_define, lastBound_concat, hop]
    by_cases hother : other = name
    · rw [if_pos hother, Option.some_inj]
      refine ⟨fun heq => Or.inl ⟨hother, heq.symm⟩, fun hlast => ?_⟩
      rcases hlast with ⟨_, rfl⟩ | ⟨_, hnone⟩
      · rfl
      · exact absurd ((hop other object).mpr ⟨hother, rfl⟩) (hnone object)
    · rw [if_neg hother, h.find?]
      refine ⟨fun hlast => Or.inr ⟨hlast, fun object'' hbinds => ?_⟩, fun hlast => ?_⟩
      · exact hother ((hop other object'').mp hbinds).1
      · rcases hlast with ⟨heq, _⟩ | ⟨hlast, _⟩
        · exact absurd heq hother
        · exact hlast

/-- **One operation more is remembered like those before it.** -/
theorem perform (h : env.Remembers ops) (op : Operation) :
    (env.perform op).2.Remembers (ops ++ [op]) := by
  cases op with
  | define name object =>
      refine h.of_binds (fun other object' => ?_) (defined_concat.mpr (Or.inr ⟨object, rfl⟩))
      constructor
      · intro hbinds
        cases hbinds
        exact ⟨rfl, rfl⟩
      · intro hsame
        obtain ⟨rfl, rfl⟩ := hsame
        exact .define
  | assign name object =>
      by_cases hknown : env.contains name.lexeme = true
      · rw [perform_assign_of_contains hknown]
        have hdefined := (h.contains name.lexeme).mp hknown
        refine h.of_binds (fun other object' => ?_) (defined_concat.mpr (Or.inl hdefined))
        constructor
        · intro hbinds
          cases hbinds with
          | assign hname _ => exact ⟨hname.symm, rfl⟩
        · intro hsame
          obtain ⟨rfl, rfl⟩ := hsame
          exact .assign rfl hdefined
      · rw [perform_assign_of_not_contains hknown]
        refine h.of_not_binds fun other object' hbinds => ?_
        cases hbinds with
        | assign hname hdefined => exact hknown ((h.contains name.lexeme).mpr (hname ▸ hdefined))
  | get name =>
      have hsame : (env.perform (.get name)).2 = env := by
        rw [Environment.perform]
        split <;> rfl
      rw [hsame]
      exact h.of_not_binds nofun
  | contains name => exact h.of_not_binds nofun

/-- **So are all the operations of a run**, by induction on them. -/
theorem after (h : env.Remembers ops) (later : List Operation) :
    (env.after later).Remembers (ops ++ later) := by
  induction later generalizing env ops with
  | nil => rwa [List.append_nil]
  | cons op later ih =>
      have hall := ih (h.perform op)
      rwa [List.append_assoc] at hall

/-- The answer that is due is the one that is given. -/
theorem due_iff (h : env.Remembers ops) : Due ops op answer ↔ (env.perform op).1 = answer := by
  constructor
  · intro hdue
    cases hdue with
    | define => rfl
    | assign hdefined => rw [perform_assign_of_contains ((h.contains _).mpr hdefined)]
    | refuse hdefined => rw [perform_assign_of_not_contains (mt (h.contains _).mp hdefined)]
    | get hlast => rw [perform_get_of_find? ((h.find? _ _).mpr hlast)]
    | miss hdefined => rw [perform_get_of_not_contains (mt (h.contains _).mp hdefined)]
    | known hdefined => exact congrArg Answer.whether ((h.contains _).mpr hdefined)
    | unknown hdefined =>
        exact congrArg Answer.whether (Bool.eq_false_iff.mpr (mt (h.contains _).mp hdefined))
  · intro hanswer
    subst hanswer
    cases op with
    | define name object => exact .define
    | assign name object =>
        by_cases hknown : env.contains name.lexeme = true
        · rw [perform_assign_of_contains hknown]
          exact .assign ((h.contains _).mp hknown)
        · rw [perform_assign_of_not_contains hknown]
          exact .refuse (mt (h.contains _).mpr hknown)
    | get name =>
        by_cases hknown : env.contains name.lexeme = true
        · obtain ⟨object, hfind⟩ := Option.isSome_iff_exists.mp hknown
          rw [perform_get_of_find? hfind]
          exact .get ((h.find? _ _).mp hfind)
        · rw [perform_get_of_not_contains hknown]
          exact .miss (mt (h.contains _).mpr hknown)
    | contains name =>
        by_cases hknown : env.contains name = true
        · rw [Environment.perform, hknown]
          exact .known ((h.contains _).mp hknown)
        · rw [Environment.perform, Bool.eq_false_iff.mpr hknown]
          exact .unknown (mt (h.contains _).mpr hknown)

end Remembers

/--
**An environment answers by the operations so far.**

Among any operations on an environment that was empty at first, one of them has the one answer that
is due behind those before it. A name is known if it has been defined. Reading a token finds what
was bound to its lexeme last, and fails with the lexeme and the line of the token if the lexeme has
never been defined. An assignment succeeds if its name has been defined; and if it fails, all other
answers are as they would be without it.
-/
theorem answers_by_last_binding (earlier later : List Operation) (op : Operation) :
    let all := empty.answers (earlier ++ op :: later)
    (∃ answer, all[earlier.length]? = some answer ∧ ∀ other, Due earlier op other ↔ other = answer)
      ∧ ∀ name object, op = .assign name object → ¬Defined earlier name.lexeme →
          all.eraseIdx earlier.length = empty.answers (earlier ++ later) := by
  intro all
  have hearlier : (empty.after earlier).Remembers earlier := Remembers.empty.after earlier
  have hall : all = empty.answers earlier
      ++ ((empty.after earlier).perform op).1
        :: ((empty.after earlier).perform op).2.answers later := answers_append
  have hlength : (empty.answers earlier).length = earlier.length := length_answers
  refine ⟨⟨_, ?_, fun other => hearlier.due_iff.trans eq_comm⟩, fun name object hop hdefined => ?_⟩
  · rw [hall, ← hlength, List.getElem?_append_right (Nat.le_refl _), Nat.sub_self,
      List.getElem?_cons_zero]
  · -- the assignment leaves the environment that the later operations would have found without it
    have hknown := mt (hearlier.contains name.lexeme).mp hdefined
    rw [hall, hop, perform_assign_of_not_contains hknown, ← hlength,
      List.eraseIdx_append_of_length_le (Nat.le_refl _), Nat.sub_self, List.eraseIdx_cons_zero,
      answers_append]

/-- The assignment to `y` fails and changes nothing; the one to `x`, by a token of another kind on
another line, is what is found from then on. -/
theorem answers_by_last_binding_refused :
    let word (lexeme : String) : Token := ⟨.identifier, lexeme, none, 1⟩
    let x : Token := ⟨.string, "x", some .nil, 7⟩
    let early : List Operation := [.define "x" .nil, .assign (word "y") .nil]
    let earlier := early ++ [.assign x (.boolean true)]
    let refused := empty.answers (earlier ++ [.get (word "x"), .get (word "y"), .contains "y"])
    refused[1]? = some (.failed (.undefinedVariable "y" 1))
      ∧ refused[3]? = some (.found (.boolean true))
      ∧ refused.eraseIdx 1 = [.done, .done, .found (.boolean true),
          .failed (.undefinedVariable "y" 1), .whether false] := by
  intro word x early earlier refused
  have hy : ¬Defined [.define "x" .nil] "y" := by
    intro h
    obtain ⟨object, hmem⟩ := h
    injection List.mem_singleton.mp hmem with hname _
    exact absurd hname (by decide)
  have hx : Defined early "x" := ⟨.nil, List.mem_cons_self ..⟩
  have hlast : LastBound earlier "x" (.boolean true) :=
    lastBound_concat.mpr (Or.inl (.assign rfl hx))
  obtain ⟨⟨answer, hrefused, hdue⟩, herased⟩ := answers_by_last_binding [.define "x" .nil]
    [.assign x (.boolean true), .get (word "x"), .get (word "y"), .contains "y"]
    (.assign (word "y") .nil)
  obtain rfl := (hdue _).mp (.refuse hy)
  obtain ⟨⟨answer, hfound, hdue⟩, _⟩ := answers_by_last_binding earlier
    [.get (word "y"), .contains "y"] (.get (word "x"))
  obtain rfl := (hdue _).mp (.get hlast)
  exact ⟨hrefused, hfound, herased _ _ rfl hy⟩

end Lox.Environment

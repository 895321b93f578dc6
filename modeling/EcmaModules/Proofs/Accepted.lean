import EcmaModules.Proofs.Requests

/-!
# What accepted texts request

The grammar says two things of the requests in a text that it accepts. The keys of the attributes of a
request differ. And only an import may be deferred: what a declaration exports from another module it
requests for evaluation.

Both are known where a request is read, deep inside of the rules for declarations. What is above may
try, give up and read again, but it hands on what was read below. So nothing has to be known of a
reader but what holds of whatever it gives back (`Reader.Gives`).
-/

namespace EcmaModules.Syntax

namespace Reader

variable {α β : Type} {P : α → Prop} {Q : β → Prop}

/-- Whatever the reader gives back has the property. -/
def Gives (r : Reader α) (P : α → Prop) : Prop :=
  ∀ s a s', r s = .ok (a, s') → P a

theorem gives_pure {a : α} (h : P a) : (pure a : Reader α).Gives P := by
  intro s b s' hb
  cases hb
  exact h

theorem gives_fail : (fail : Reader α).Gives P := fun _ _ _ h ↦ nomatch h

theorem Gives.bind {r : Reader β} {f : β → Reader α} (hr : r.Gives Q)
    (hf : ∀ b, Q b → (f b).Gives P) : (r >>= f).Gives P := by
  intro s a s' h
  change (r s >>= fun x ↦ f x.1 x.2) = .ok (a, s') at h
  cases hrs : r s with
  | error e =>
    rw [hrs] at h
    exact nomatch h
  | ok x =>
    rw [hrs] at h
    exact hf x.1 (hr s x.1 x.2 hrs) _ _ _ h

theorem gives_bind {r : Reader β} {f : β → Reader α} (hf : ∀ b, (f b).Gives P) :
    (r >>= f).Gives P :=
  Gives.bind (Q := fun _ ↦ True) (fun _ _ _ _ ↦ trivial) fun b _ ↦ hf b

theorem gives_require (c : Bool) : (require c).Gives fun _ ↦ c = true := by
  unfold require
  split
  · next h => exact gives_pure h
  · exact gives_fail

/-- Each of the items that are read has the property. -/
theorem gives_many {atEnd : Reader Bool} {item : Reader α} (h : item.Gives P) :
    (many atEnd item).Gives fun l ↦ ∀ a ∈ l, P a := by
  have hfrom : ∀ n found, (∀ a ∈ found, P a) →
      (manyFrom atEnd item n found).Gives fun l ↦ ∀ a ∈ l, P a := by
    intro n
    induction n with
    | zero => exact fun _ _ ↦ gives_fail
    | succ n ih =>
      intro found hfound
      refine gives_bind fun ended ↦ ?_
      split
      · exact gives_pure (by simpa using hfound)
      · exact h.bind fun a ha ↦ ih _ (List.forall_mem_cons.2 ⟨ha, hfound⟩)
  exact gives_bind fun _ ↦ hfrom _ _ nofun

end Reader

open Reader Entries

/-! ## Declarations -/

/-- The keys of the attributes of its request differ, and only an import is deferred. -/
structure Declaration.Proper (d : Declaration) : Prop where
  distinct : ∀ r, requestOf? d = some r → r.Distinct
  deferred : ∀ r, requestOf? d = some r → r.phase = .defer →
    ∃ specifiers, d = .imports specifiers r

theorem Declaration.Proper.of_none {d : Declaration} (h : requestOf? d = none) : d.Proper := by
  refine ⟨fun r hr ↦ ?_, fun r hr _ ↦ ?_⟩
  all_goals exact nomatch h.symm.trans hr

theorem Declaration.Proper.of_evaluation {d : Declaration} {r : Request}
    (h : requestOf? d = some r) (hr : r.Distinct ∧ r.phase = .evaluation) : d.Proper := by
  refine ⟨fun q hq ↦ ?_, fun q hq hdefer ↦ ?_⟩
  · cases h.symm.trans hq
    exact hr.1
  · cases h.symm.trans hq
    exact nomatch hdefer.symm.trans hr.2

theorem Declaration.Proper.of_imports {specifiers : List ImportSpecifier} {r : Request}
    (h : r.Distinct) : (Declaration.imports specifiers r).Proper := by
  refine ⟨fun q hq ↦ ?_, fun q hq _ ↦ ?_⟩
  · cases hq
    exact h
  · cases hq
    exact ⟨specifiers, rfl⟩

/-- The statement is no declaration, or a proper one. -/
def Statement.Proper (s : Statement) : Prop := ∀ d, s = .declaration d → d.Proper

/-! ## The rules -/

theorem gives_readRequest (phase : Phase) :
    (readRequest phase).Gives fun r ↦ r.Distinct ∧ r.phase = phase := by
  unfold readRequest
  refine gives_bind fun _ ↦ gives_bind fun _ ↦ gives_bind fun _ ↦ ?_
  dsimp only
  -- However the attributes are announced, they are either read and compared, or there are none.
  split
  on_goal 2 => split
  all_goals
    refine gives_bind fun has ↦ ?_
    split
    · refine gives_bind fun _ ↦ gives_bind fun x ↦ (gives_require _).bind fun _ hnodup ↦ ?_
      have hdistinct : (x.1.map (·.key)).Nodup := of_decide_eq_true hnodup
      exact gives_pure ⟨hdistinct, rfl⟩
    · exact gives_pure ⟨List.nodup_nil, rfl⟩

theorem gives_readImportFrom (specifiers : List ImportSpecifier) (phase : Phase) :
    (readImportFrom specifiers phase).Gives Declaration.Proper := by
  refine gives_bind fun _ ↦ (gives_readRequest phase).bind fun r hr ↦ gives_bind fun _ ↦ ?_
  exact gives_pure (.of_imports hr.1)

theorem gives_readImport (c : Place) : (readImport c).Gives Declaration.Proper := by
  unfold readImport
  refine gives_bind fun t ↦ ?_
  split
  · refine (gives_readRequest .evaluation).bind fun r hr ↦ gives_bind fun _ ↦ ?_
    exact gives_pure (.of_imports hr.1)
  · repeat' first
      | exact gives_readImportFrom _ _
      | refine gives_bind fun _ ↦ ?_
      | dsimp only
      | split
  · exact gives_bind fun _ ↦ gives_readImportFrom _ _

theorem gives_readDefaultExport (k : Rules) (c : Place) :
    (readDefaultExport k c).Gives Declaration.Proper := by
  unfold readDefaultExport
  repeat' first
    | exact gives_pure (.of_none rfl)
    | refine gives_bind fun _ ↦ ?_
    | dsimp only
    | split

theorem gives_readExport (k : Rules) (c : Place) : (readExport k c).Gives Declaration.Proper := by
  unfold readExport
  refine gives_bind fun t ↦ ?_
  split
  case h_1 =>
    refine gives_bind fun _ ↦ gives_bind fun _ ↦ ?_
    dsimp only
    split
    all_goals
      refine gives_bind fun _ ↦ gives_bind fun _ ↦ (gives_readRequest _).bind fun r hr ↦ ?_
      exact gives_bind fun _ ↦ gives_pure (.of_evaluation rfl hr)
  case h_2 =>
    refine gives_bind fun _ ↦ gives_bind fun _ ↦ gives_bind fun _ ↦ ?_
    split
    · refine (gives_readRequest _).bind fun r hr ↦ ?_
      exact gives_bind fun _ ↦ gives_pure (.of_evaluation rfl hr)
    · exact gives_bind fun _ ↦ gives_bind fun _ ↦ gives_pure (.of_none rfl)
  case h_3 => exact gives_bind fun _ ↦ gives_readDefaultExport k c
  case h_4 | h_5 | h_6 => exact gives_bind fun _ ↦ gives_bind fun _ ↦ gives_pure (.of_none rfl)
  case h_7 =>
    refine gives_bind fun _ ↦ ?_
    split
    · exact gives_bind fun _ ↦ gives_pure (.of_none rfl)
    · exact gives_bind fun _ ↦ gives_bind fun _ ↦ gives_pure (.of_none rfl)

theorem gives_noteExports {d : Declaration} (h : d.Proper) :
    (noteExports d).Gives Declaration.Proper :=
  gives_bind fun _ ↦ gives_bind fun _ ↦ gives_bind fun _ ↦ gives_pure h

theorem Statement.Proper.of_declaration {r : Reader Declaration} (h : r.Gives Declaration.Proper) :
    (return .declaration (← r) : Reader Statement).Gives Statement.Proper :=
  h.bind fun d hd ↦ gives_pure fun _ hd' ↦ by
    cases hd'
    exact hd

/-! ### Statements that are no declarations -/

theorem gives_readFor (k : Rules) (c : Place) : (readFor k c).Gives Statement.Proper := by
  unfold readFor
  repeat' first
    | exact gives_pure nofun
    | refine gives_bind fun _ ↦ ?_
    | split

theorem gives_readTry (k : Rules) (c : Place) : (readTry k c).Gives Statement.Proper := by
  unfold readTry
  repeat' first
    | exact gives_pure nofun
    | refine gives_bind fun _ ↦ ?_
    | split

theorem gives_readJump (c : Place) : (readJump c).Gives Statement.Proper := by
  unfold readJump
  repeat' first
    | exact gives_pure nofun
    | refine gives_bind fun _ ↦ ?_
    | split

theorem gives_readDeclared (k : Rules) (c : Place) (alone : Bool) (kind : VariableKind) :
    (readDeclared k c alone kind).Gives Statement.Proper :=
  gives_bind fun _ ↦ gives_bind fun _ ↦ gives_bind fun _ ↦ gives_pure nofun

theorem gives_readFunctionStatement (k : Rules) (c : Place) (alone : Bool) :
    (readFunctionStatement k c alone).Gives Statement.Proper :=
  gives_bind fun _ ↦ gives_bind fun _ ↦ gives_bind fun _ ↦ gives_bind fun _ ↦ gives_bind fun _ ↦
    gives_pure nofun

theorem gives_readExpressionStatement (k : Rules) (c : Place) :
    (readExpressionStatement k c).Gives Statement.Proper := by
  unfold readExpressionStatement
  repeat' first
    | exact gives_pure nofun
    | refine gives_bind fun _ ↦ ?_
    | split

/-! ### Statements -/

/-- Only `export` and `import` begin a declaration. -/
theorem gives_readWordStatement (k : Rules) (c : Place) (alone : Bool) (word : String) :
    (readWordStatement k c alone word).Gives Statement.Proper := by
  unfold readWordStatement
  split
  case h_2 => exact gives_readFor k c
  case h_6 => exact gives_readDeclared k c alone .const
  case h_7 => exact gives_readFunctionStatement k c alone
  case h_11 => exact gives_readTry k c
  case h_14 | h_15 => exact gives_readJump c
  case h_17 =>
    refine gives_bind fun _ ↦ (gives_readExport k c).bind fun d hd ↦ ?_
    exact .of_declaration (gives_noteExports hd)
  case h_18 =>
    refine gives_bind fun next ↦ ?_
    dsimp only
    split
    · exact gives_readExpressionStatement k c
    · exact gives_bind fun _ ↦ .of_declaration (gives_readImport c)
  case h_19 =>
    refine gives_bind fun next ↦ ?_
    split
    · exact gives_readExpressionStatement k c
    · exact gives_readDeclared k c alone .let
  case h_20 =>
    refine gives_bind fun async ↦ ?_
    split
    · exact gives_readFunctionStatement k c alone
    · refine gives_bind fun resource ↦ ?_
      split
      · exact gives_readDeclared k c alone _
      · exact gives_readExpressionStatement k c
  all_goals
    repeat' first
      | exact gives_pure nofun
      | refine gives_bind fun _ ↦ ?_
      | split
      | dsimp only

theorem gives_readStatement (k : Rules) (c : Place) (alone : Bool) :
    (readStatement k c alone).Gives Statement.Proper := by
  unfold readStatement
  refine gives_bind fun t ↦ ?_
  split
  case h_4 => exact gives_readWordStatement _ _ _ _
  case h_5 => exact gives_readExpressionStatement _ _
  all_goals
    repeat' first
      | exact gives_pure nofun
      | exact .of_declaration (gives_noteExports (.of_none rfl))
      | refine gives_bind fun _ ↦ ?_
      | split

/-- The declarations of a text that is accepted. -/
theorem proper_of_parse? {text : String} {body : List Statement} (h : parse? text = some body) :
    ∀ d ∈ declarations body, d.Proper := by
  have hgives : ∀ n, (readModule (Rules.upTo (n + 1))).Gives fun body ↦ ∀ s ∈ body, s.Proper :=
    fun n ↦ (gives_many (gives_readStatement (Rules.upTo n) {} false)).bind fun body hbody ↦
      gives_bind fun _ ↦ gives_bind fun _ ↦ gives_pure hbody
  intro d hd
  obtain ⟨s, hs, hsd⟩ := List.mem_filterMap.1 hd
  unfold parse? parseChars? at h
  dsimp only at h
  split at h
  · next b state heq =>
    obtain rfl := Option.some.inj h
    refine hgives _ _ _ _ heq s hs d ?_
    split at hsd
    · rw [Option.some.inj hsd]
    · exact nomatch hsd
  · exact nomatch h

end EcmaModules.Syntax

import DecafBackend.Proofs.SpelledRecords

/-! # Spellings of programs

    A program has one written form that the writer gives it, and others: programs,
    methods, blocks and calls may be arrays of their fields, fields that hold their
    defaults may be left out, words may be objects with `null`, and objects may have
    further members.  The reader makes the same program of all of them.

    * `Expr.Spells`, `Stmt.Spells`, `Program.Spells` — the spellings of each form
    * `spells_toJson` — the writer's form is a spelling
    * `readExpr_spelled`, `readStmt_spelled` — spellings are read
    * `Program.read_spelled` — programs come back from every spelling -/

namespace DecafBackend.Source

open Json (Field IsObject IsRecord IsTagged IsWord)

/-! ## Spellings of each form -/

mutual

/-- The spellings of an expression. -/
def Expr.Spells : Expr → Json → Prop
  | .int value => IsTagged "int" (· = .int value.toInt)
  | .bool value => IsTagged "bool" (· = .bool value)
  | .var name => IsTagged "var" (· = .string name)
  | .call call => IsTagged "call" call.Spells
  | .binary op lhs rhs => IsTagged "binary" (IsObject
      [.needed "op" (IsWord op.word), .needed "lhs" lhs.Spells, .needed "rhs" rhs.Spells])
  | .unary op operand => IsTagged "unary" (IsObject
      [.needed "op" (IsWord op.mnemonic), .needed "operand" operand.Spells])

/-- The spellings of a call. -/
def Call.Spells : Call → Json → Prop
  | .mk name args isCallout => IsRecord
      [.needed "name" (· = .string name),
        ⟨"args", fun json => ∃ items, json = .array items ∧ argsSpell args items, args = []⟩,
        ⟨"callout", (· = .bool isCallout), isCallout = false⟩]

/-- The spellings of an argument. -/
def Arg.Spells : Arg → Json → Prop
  | .expr value => IsTagged "expr" value.Spells
  | .text value => IsTagged "str" (· = .string value)

/-- Items that spell arguments one by one. -/
def argsSpell : List Arg → List Json → Prop
  | [], items => items = []
  | arg :: args, items =>
    ∃ first rest, items = first :: rest ∧ arg.Spells first ∧ argsSpell args rest

end

mutual

/-- The spellings of a statement. -/
def Stmt.Spells : Stmt → Json → Prop
  | .assign target op value => IsTagged "assign" (IsObject
      [.needed "target" (· = .string target), .needed "op" (IsWord op.word),
        .needed "value" value.Spells])
  | .call call => IsTagged "call" call.Spells
  | .cond cond thenBlock none => IsTagged "if" (IsObject
      [.needed "cond" cond.Spells, .needed "then" thenBlock.Spells,
        ⟨"otherwise", (· = .null), True⟩])
  | .cond cond thenBlock (some elseBlock) => IsTagged "if" (IsObject
      [.needed "cond" cond.Spells, .needed "then" thenBlock.Spells,
        .needed "otherwise" elseBlock.Spells])
  | .whileLoop cond body => IsTagged "while" (IsObject
      [.needed "cond" cond.Spells, .needed "body" body.Spells])
  | .forLoop var start bound body => IsTagged "for" (IsObject
      [.needed "var" (· = .string var), .needed "start" start.Spells,
        .needed "end" bound.Spells, .needed "body" body.Spells])
  | .ret none => IsTagged "return" (· = .null)
  | .ret (some value) => IsTagged "return" value.Spells
  | .breakLoop => IsWord "break"
  | .continueLoop => IsWord "continue"
  | .block block => IsTagged "block" block.Spells

/-- The spellings of a block. -/
def Block.Spells : Block → Json → Prop
  | .mk locals stmts => IsRecord
      [⟨"locals", (· = namesToJson locals), locals = []⟩,
        ⟨"stmts", fun json => ∃ items, json = .array items ∧ stmtsSpell stmts items, stmts = []⟩]

/-- Items that spell statements one by one. -/
def stmtsSpell : List Stmt → List Json → Prop
  | [], items => items = []
  | stmt :: stmts, items =>
    ∃ first rest, items = first :: rest ∧ stmt.Spells first ∧ stmtsSpell stmts rest

end

/-- The spellings of a method. -/
def Method.Spells (method : Method) : Json → Prop :=
  IsRecord [.needed "name" (· = .string method.name),
    ⟨"params", (· = namesToJson method.params), method.params = []⟩,
    ⟨"returns_value", (· = .bool method.returnsValue), method.returnsValue = false⟩,
    .needed "body" method.body.Spells]

/-- The spellings of a program. -/
def Program.Spells (program : Program) : Json → Prop :=
  IsRecord [⟨"fields", (· = namesToJson program.fields), program.fields = []⟩,
    .needed "methods" fun json =>
      ∃ items, json = .array items ∧ List.Forall₂ Method.Spells program.methods items]

/-! ## Reading leaves -/

variable {positional : Bool} {json : Json} {depth : Nat}

theorem Operator.ofWord?_word (op : Operator) : Operator.ofWord? op.word = some op := by
  cases op with
  | strict op => cases op <;> decide
  | and => decide
  | or => decide

theorem AssignOp.ofWord?_word (op : AssignOp) : AssignOp.ofWord? op.word = some op := by
  cases op <;> decide

theorem ofMnemonic?_mnemonic (op : UnaryOp) : UnaryOp.ofMnemonic? op.mnemonic = some op := by
  cases op <;> decide

/-- A number of 64 bits is read back from its integer. -/
theorem int64?_int (value : Int64) : (Json.int value.toInt).int64? = some value := by
  have hlow : -9223372036854775808 ≤ value.toInt := Int64.le_toInt value
  have hhigh : value.toInt ≤ 9223372036854775807 := Int64.toInt_le value
  rw [Json.int64?, Json.intIn?, if_pos ⟨hlow, hhigh⟩, Option.map_some, Int64.ofInt_toInt]

/-- A part that is read, and what the reader does then. -/
theorem read_then {α β : Type} {part : Option α} {next : α → Option β} {a : α} {b : β}
    (h : part = some a) (hnext : next a = some b) : (part >>= next) = some b := by
  rw [h]
  exact hnext

/-- A list of values is read if each of them is. -/
theorem mapM_read {α : Type} {read : Json → Option α} {as : List α} {items : List Json}
    (h : List.Forall₂ (fun a item => read item = some a) as items) : items.mapM read = some as := by
  induction h with
  | nil => rfl
  | cons hfirst _ ih =>
      rw [List.mapM_cons, hfirst, ih]
      rfl

theorem readNames_namesToJson (names : List String) :
    readNames (namesToJson names) = some names := by
  refine mapM_read (List.forall₂_map_right_iff.mpr ?_)
  exact List.forall₂_same.mpr fun _ _ => rfl

/-- A field that spells a list of names, empty unless given. -/
theorem defaulted_names {bound : Nat} {name : String} {names : List String} {found : Option Json}
    (h : Field.Found bound ⟨name, (· = namesToJson names), names = []⟩ found) :
    defaulted [] readNames found = some names :=
  Json.defaulted_eq h Eq.symm fun _ hvalue _ => hvalue ▸ readNames_namesToJson names

/-- The fields of an alternative are found, by name and where arrays are read too. -/
theorem payloadFields_found (positional : Bool) {fields : List Field} (names : List String)
    (hnames : fields.map Field.name = names) (hnodup : names.Nodup) (h : IsObject fields json) :
    ∃ found, payloadFields positional names json = some found ∧
      List.Forall₂ (Field.Found json.depth) fields found := by
  cases positional with
  | true => exact Json.record?_found names hnames hnodup (Or.inl h)
  | false => exact Json.members?_found names hnames hnodup h

/-! ## Reading expressions -/

theorem depth_eq_succ (h : json.depth ≤ depth) : ∃ n, depth = n + 1 :=
  Nat.exists_eq_succ_of_ne_zero (Nat.ne_of_gt (Nat.lt_of_lt_of_le json.depth_pos h))

-- By induction on the tree: a spelling may be deeper than the tree, since unknown members
-- count, so the depth can only be a bound that each part of the spelling keeps.
mutual

/-- **EXPRESSIONS ARE READ** from all their spellings. -/
theorem readExpr_spelled : ∀ {expr : Expr} {json : Json} {depth : Nat}, expr.Spells json →
    json.depth ≤ depth → readExpr positional depth json = some expr
  | .int value, json, depth, h, hdepth => by
      obtain ⟨depth, rfl⟩ := depth_eq_succ hdepth
      obtain ⟨_, hvariant, rfl, -⟩ := Json.variant?_tagged h
      rw [readExpr]
      exact read_then hvariant <| read_then rfl <| read_then (int64?_int value) rfl
  | .bool value, json, depth, h, hdepth => by
      obtain ⟨depth, rfl⟩ := depth_eq_succ hdepth
      obtain ⟨_, hvariant, rfl, -⟩ := Json.variant?_tagged h
      rw [readExpr]
      exact read_then hvariant <| read_then rfl rfl
  | .var name, json, depth, h, hdepth => by
      obtain ⟨depth, rfl⟩ := depth_eq_succ hdepth
      obtain ⟨_, hvariant, rfl, -⟩ := Json.variant?_tagged h
      rw [readExpr]
      exact read_then hvariant <| read_then rfl rfl
  | .call call, json, depth, h, hdepth => by
      obtain ⟨depth, rfl⟩ := depth_eq_succ hdepth
      obtain ⟨payload, hvariant, hcall, hlt⟩ := Json.variant?_tagged h
      have hread : readCall positional depth payload = some call :=
        readCall_spelled hcall (by omega)
      rw [readExpr]
      exact read_then hvariant <| read_then rfl <| read_then hread rfl
  | .binary op lhs rhs, json, depth, h, hdepth => by
      obtain ⟨depth, rfl⟩ := depth_eq_succ hdepth
      obtain ⟨payload, hvariant, hobject, hlt⟩ := Json.variant?_tagged h
      obtain ⟨found, hfound, _ | ⟨hop, _ | ⟨hlhs, _ | ⟨hrhs, _ | _⟩⟩⟩⟩ :=
        payloadFields_found positional ["op", "lhs", "rhs"] rfl (by decide) hobject
      have hreadLhs : required (readExpr positional depth) _ = some lhs :=
        Json.required_eq hlhs fun _ hvalue _ => readExpr_spelled hvalue (by omega)
      have hreadRhs : required (readExpr positional depth) _ = some rhs :=
        Json.required_eq hrhs fun _ hvalue _ => readExpr_spelled hvalue (by omega)
      have hreadOp := Json.required_word hop op.ofWord?_word
      rw [readExpr]
      exact read_then hvariant <| read_then rfl <| read_then hfound <| read_then hreadOp <|
        read_then hreadLhs <| read_then hreadRhs rfl
  | .unary op operand, json, depth, h, hdepth => by
      obtain ⟨depth, rfl⟩ := depth_eq_succ hdepth
      obtain ⟨payload, hvariant, hobject, hlt⟩ := Json.variant?_tagged h
      obtain ⟨found, hfound, _ | ⟨hop, _ | ⟨hoperand, _ | _⟩⟩⟩ :=
        payloadFields_found positional ["op", "operand"] rfl (by decide) hobject
      have hreadOperand : required (readExpr positional depth) _ = some operand :=
        Json.required_eq hoperand fun _ hvalue _ => readExpr_spelled hvalue (by omega)
      have hreadOp := Json.required_word hop (ofMnemonic?_mnemonic op)
      rw [readExpr]
      exact read_then hvariant <| read_then rfl <| read_then hfound <| read_then hreadOp <|
        read_then hreadOperand rfl

/-- A call is read from all its spellings. -/
theorem readCall_spelled : ∀ {call : Call} {json : Json} {depth : Nat}, call.Spells json →
    json.depth ≤ depth → readCall positional depth json = some call
  | .mk name args isCallout, json, depth, h, hdepth => by
      obtain ⟨depth, rfl⟩ := depth_eq_succ hdepth
      obtain ⟨found, hfound, _ | ⟨hname, _ | ⟨hargs, _ | ⟨hcallout, _ | _⟩⟩⟩⟩ :=
        Json.record?_found ["name", "args", "callout"] rfl (by decide) h
      have hreadItems (value : Json) : (∃ items, value = .array items ∧ argsSpell args items) →
          value.depth < json.depth → value.list? (readArg positional depth) = some args := by
        rintro ⟨items, rfl, hitems⟩ hlt
        refine readArgs_spelled hitems fun item hmem => ?_
        have := Json.depth_lt_of_item hmem
        omega
      have hreadArgs := Json.defaulted_eq hargs Eq.symm hreadItems
      have hreadName := Json.required_string hname
      have hreadCallout := Json.defaulted_bool hcallout
      rw [readCall]
      exact read_then hfound <| read_then hreadName <| read_then hreadArgs <|
        read_then hreadCallout rfl

/-- An argument is read from all its spellings. -/
theorem readArg_spelled : ∀ {arg : Arg} {json : Json} {depth : Nat}, arg.Spells json →
    json.depth ≤ depth → readArg positional depth json = some arg
  | .expr value, json, depth, h, hdepth => by
      obtain ⟨depth, rfl⟩ := depth_eq_succ hdepth
      obtain ⟨payload, hvariant, hvalue, hlt⟩ := Json.variant?_tagged h
      have hread : readExpr positional depth payload = some value :=
        readExpr_spelled hvalue (by omega)
      rw [readArg]
      exact read_then hvariant <| read_then rfl <| read_then hread rfl
  | .text value, json, depth, h, hdepth => by
      obtain ⟨depth, rfl⟩ := depth_eq_succ hdepth
      obtain ⟨_, hvariant, rfl, -⟩ := Json.variant?_tagged h
      rw [readArg]
      exact read_then hvariant <| read_then rfl rfl

/-- Arguments are read item by item. -/
theorem readArgs_spelled : ∀ {args : List Arg} {items : List Json} {depth : Nat},
    argsSpell args items → (∀ item ∈ items, item.depth ≤ depth) →
      items.mapM (readArg positional depth) = some args
  | [], items, depth, h, _ => by
      subst h
      rfl
  | arg :: args, items, depth, h, hdepth => by
      obtain ⟨first, rest, rfl, hfirst, hrest⟩ := h
      obtain ⟨hdepth, hdepths⟩ := List.forall_mem_cons.mp hdepth
      have hreadFirst : readArg positional depth first = some arg := readArg_spelled hfirst hdepth
      have hreadRest : rest.mapM (readArg positional depth) = some args :=
        readArgs_spelled hrest hdepths
      rw [List.mapM_cons]
      exact read_then hreadFirst <| read_then hreadRest rfl

end

theorem Expr.ofJson?_spelled {expr : Expr} (h : expr.Spells json) :
    Expr.ofJson? positional json = some expr := readExpr_spelled h (Nat.le_refl _)

/-! ## Reading statements -/

-- `null` is nothing where a value may be absent, so what is there must not be spelled so
theorem Expr.Spells.ne_null : ∀ {expr : Expr}, expr.Spells json → json ≠ .null
  | .int _, h | .bool _, h | .var _, h | .call _, h | .binary _ _ _, h | .unary _ _, h =>
    IsTagged.ne_null h

theorem Block.Spells.ne_null : ∀ {block : Block}, block.Spells json → json ≠ .null
  | .mk _ _, h => IsRecord.ne_null h

mutual

/-- **STATEMENTS ARE READ** from all their spellings. -/
theorem readStmt_spelled : ∀ {stmt : Stmt} {json : Json} {depth : Nat}, stmt.Spells json →
    json.depth ≤ depth → readStmt positional depth json = some stmt
  | .assign target op value, json, depth, h, hdepth => by
      obtain ⟨depth, rfl⟩ := depth_eq_succ hdepth
      obtain ⟨payload, hvariant, hobject, hlt⟩ := Json.variant?_tagged h
      obtain ⟨found, hfound, _ | ⟨htarget, _ | ⟨hop, _ | ⟨hvalue, _ | _⟩⟩⟩⟩ :=
        payloadFields_found positional ["target", "op", "value"] rfl (by decide) hobject
      have hreadValue : required (readExpr positional depth) _ = some value :=
        Json.required_eq hvalue fun _ hvalue _ => readExpr_spelled hvalue (by omega)
      have hreadTarget := Json.required_string htarget
      have hreadOp := Json.required_word hop op.ofWord?_word
      rw [readStmt]
      exact read_then hvariant <| read_then hfound <| read_then hreadTarget <| read_then hreadOp <|
        read_then hreadValue rfl
  | .call call, json, depth, h, hdepth => by
      obtain ⟨depth, rfl⟩ := depth_eq_succ hdepth
      obtain ⟨payload, hvariant, hcall, hlt⟩ := Json.variant?_tagged h
      have hread : readCall positional depth payload = some call :=
        readCall_spelled hcall (by omega)
      rw [readStmt]
      exact read_then hvariant <| read_then hread rfl
  | .cond cond thenBlock none, json, depth, h, hdepth => by
      obtain ⟨depth, rfl⟩ := depth_eq_succ hdepth
      obtain ⟨payload, hvariant, hobject, hlt⟩ := Json.variant?_tagged h
      obtain ⟨found, hfound, _ | ⟨hcond, _ | ⟨hthen, _ | ⟨helse, _ | _⟩⟩⟩⟩ :=
        payloadFields_found positional ["cond", "then", "otherwise"] rfl (by decide) hobject
      have hreadCond : required (readExpr positional depth) _ = some cond :=
        Json.required_eq hcond fun _ hvalue _ => readExpr_spelled hvalue (by omega)
      have hreadThen : required (readBlock positional depth) _ = some thenBlock :=
        Json.required_eq hthen fun _ hvalue _ => readBlock_spelled hvalue (by omega)
      -- a branch that is not there may be `null` or left out
      have hreadElse :
          defaulted none (Json.nullable? (readBlock positional depth)) _ = some none :=
        Json.defaulted_eq helse (fun _ => rfl) fun _ hvalue _ => hvalue ▸ rfl
      rw [readStmt]
      exact read_then hvariant <| read_then hfound <| read_then hreadCond <| read_then hreadThen <|
        read_then hreadElse rfl
  | .cond cond thenBlock (some elseBlock), json, depth, h, hdepth => by
      obtain ⟨depth, rfl⟩ := depth_eq_succ hdepth
      obtain ⟨payload, hvariant, hobject, hlt⟩ := Json.variant?_tagged h
      obtain ⟨found, hfound, _ | ⟨hcond, _ | ⟨hthen, _ | ⟨helse, _ | _⟩⟩⟩⟩ :=
        payloadFields_found positional ["cond", "then", "otherwise"] rfl (by decide) hobject
      have hreadCond : required (readExpr positional depth) _ = some cond :=
        Json.required_eq hcond fun _ hvalue _ => readExpr_spelled hvalue (by omega)
      have hreadThen : required (readBlock positional depth) _ = some thenBlock :=
        Json.required_eq hthen fun _ hvalue _ => readBlock_spelled hvalue (by omega)
      have hreadElse :
          defaulted none (Json.nullable? (readBlock positional depth)) _ = some (some elseBlock) :=
        Json.defaulted_eq helse False.elim fun _ hvalue _ =>
          Json.nullable?_eq hvalue.ne_null (readBlock_spelled hvalue (by omega))
      rw [readStmt]
      exact read_then hvariant <| read_then hfound <| read_then hreadCond <| read_then hreadThen <|
        read_then hreadElse rfl
  | .whileLoop cond body, json, depth, h, hdepth => by
      obtain ⟨depth, rfl⟩ := depth_eq_succ hdepth
      obtain ⟨payload, hvariant, hobject, hlt⟩ := Json.variant?_tagged h
      obtain ⟨found, hfound, _ | ⟨hcond, _ | ⟨hbody, _ | _⟩⟩⟩ :=
        payloadFields_found positional ["cond", "body"] rfl (by decide) hobject
      have hreadCond : required (readExpr positional depth) _ = some cond :=
        Json.required_eq hcond fun _ hvalue _ => readExpr_spelled hvalue (by omega)
      have hreadBody : required (readBlock positional depth) _ = some body :=
        Json.required_eq hbody fun _ hvalue _ => readBlock_spelled hvalue (by omega)
      rw [readStmt]
      exact read_then hvariant <| read_then hfound <| read_then hreadCond <| read_then hreadBody rfl
  | .forLoop var start bound body, json, depth, h, hdepth => by
      obtain ⟨depth, rfl⟩ := depth_eq_succ hdepth
      obtain ⟨payload, hvariant, hobject, hlt⟩ := Json.variant?_tagged h
      obtain ⟨found, hfound, _ | ⟨hvar, _ | ⟨hstart, _ | ⟨hbound, _ | ⟨hbody, _ | _⟩⟩⟩⟩⟩ :=
        payloadFields_found positional ["var", "start", "end", "body"] rfl (by decide) hobject
      have hreadStart : required (readExpr positional depth) _ = some start :=
        Json.required_eq hstart fun _ hvalue _ => readExpr_spelled hvalue (by omega)
      have hreadBound : required (readExpr positional depth) _ = some bound :=
        Json.required_eq hbound fun _ hvalue _ => readExpr_spelled hvalue (by omega)
      have hreadBody : required (readBlock positional depth) _ = some body :=
        Json.required_eq hbody fun _ hvalue _ => readBlock_spelled hvalue (by omega)
      have hreadVar := Json.required_string hvar
      rw [readStmt]
      exact read_then hvariant <| read_then hfound <| read_then hreadVar <| read_then hreadStart <|
        read_then hreadBound <| read_then hreadBody rfl
  | .ret none, json, depth, h, hdepth => by
      obtain ⟨depth, rfl⟩ := depth_eq_succ hdepth
      obtain ⟨_, hvariant, rfl, -⟩ := Json.variant?_tagged h
      rw [readStmt]
      exact read_then hvariant rfl
  | .ret (some value), json, depth, h, hdepth => by
      obtain ⟨depth, rfl⟩ := depth_eq_succ hdepth
      obtain ⟨payload, hvariant, hvalue, hlt⟩ := Json.variant?_tagged h
      have hread : payload.nullable? (readExpr positional depth) = some (some value) :=
        Json.nullable?_eq hvalue.ne_null (readExpr_spelled hvalue (by omega))
      rw [readStmt]
      exact read_then hvariant <| read_then hread rfl
  | .breakLoop, json, depth, h, hdepth => by
      obtain ⟨depth, rfl⟩ := depth_eq_succ hdepth
      rw [readStmt]
      rcases h with rfl | rfl
      · exact read_then rfl rfl
      · exact read_then rfl rfl
  | .continueLoop, json, depth, h, hdepth => by
      obtain ⟨depth, rfl⟩ := depth_eq_succ hdepth
      rw [readStmt]
      rcases h with rfl | rfl
      · exact read_then rfl rfl
      · exact read_then rfl rfl
  | .block block, json, depth, h, hdepth => by
      obtain ⟨depth, rfl⟩ := depth_eq_succ hdepth
      obtain ⟨payload, hvariant, hblock, hlt⟩ := Json.variant?_tagged h
      have hread : readBlock positional depth payload = some block :=
        readBlock_spelled hblock (by omega)
      rw [readStmt]
      exact read_then hvariant <| read_then hread rfl

/-- A block is read from all its spellings. -/
theorem readBlock_spelled : ∀ {block : Block} {json : Json} {depth : Nat}, block.Spells json →
    json.depth ≤ depth → readBlock positional depth json = some block
  | .mk locals stmts, json, depth, h, hdepth => by
      obtain ⟨depth, rfl⟩ := depth_eq_succ hdepth
      obtain ⟨found, hfound, _ | ⟨hlocals, _ | ⟨hstmts, _ | _⟩⟩⟩ :=
        Json.record?_found ["locals", "stmts"] rfl (by decide) h
      have hreadItems (value : Json) : (∃ items, value = .array items ∧ stmtsSpell stmts items) →
          value.depth < json.depth → value.list? (readStmt positional depth) = some stmts := by
        rintro ⟨items, rfl, hitems⟩ hlt
        refine readStmts_spelled hitems fun item hmem => ?_
        have := Json.depth_lt_of_item hmem
        omega
      have hreadStmts := Json.defaulted_eq hstmts Eq.symm hreadItems
      have hreadLocals := defaulted_names hlocals
      rw [readBlock]
      exact read_then hfound <| read_then hreadLocals <| read_then hreadStmts rfl

/-- Statements are read item by item. -/
theorem readStmts_spelled : ∀ {stmts : List Stmt} {items : List Json} {depth : Nat},
    stmtsSpell stmts items → (∀ item ∈ items, item.depth ≤ depth) →
      items.mapM (readStmt positional depth) = some stmts
  | [], items, depth, h, _ => by
      subst h
      rfl
  | stmt :: stmts, items, depth, h, hdepth => by
      obtain ⟨first, rest, rfl, hfirst, hrest⟩ := h
      obtain ⟨hdepth, hdepths⟩ := List.forall_mem_cons.mp hdepth
      have hreadFirst : readStmt positional depth first = some stmt :=
        readStmt_spelled hfirst hdepth
      have hreadRest : rest.mapM (readStmt positional depth) = some stmts :=
        readStmts_spelled hrest hdepths
      rw [List.mapM_cons]
      exact read_then hreadFirst <| read_then hreadRest rfl

end

/-! ## Reading methods and programs -/

/-- A method is read from all its spellings. -/
theorem Method.ofJson?_spelled {method : Method} (h : method.Spells json) :
    Method.ofJson? positional json = some method := by
  obtain ⟨found, hfound, _ | ⟨hname, _ | ⟨hparams, _ | ⟨hreturns, _ | ⟨hbody, _ | _⟩⟩⟩⟩⟩ :=
    Json.record?_found ["name", "params", "returns_value", "body"] rfl (by decide) h
  have hreadBody : required (readBlock positional json.depth) _ = some method.body :=
    Json.required_eq hbody fun _ hvalue hlt => readBlock_spelled hvalue (Nat.le_of_lt hlt)
  have hreadName := Json.required_string hname
  have hreadParams := defaulted_names hparams
  have hreadReturns := Json.defaulted_bool hreturns
  rw [Method.ofJson?]
  exact read_then hfound <| read_then hreadName <| read_then hreadParams <|
    read_then hreadReturns <| read_then hreadBody rfl

/-- A program is read from all its spellings. -/
theorem Program.ofJson?_spelled {program : Program} (h : program.Spells json) :
    Program.ofJson? positional json = some program := by
  obtain ⟨found, hfound, _ | ⟨hfields, _ | ⟨hmethods, _ | _⟩⟩⟩ :=
    Json.record?_found ["fields", "methods"] rfl (by decide) h
  have hreadItems (value : Json) :
      (∃ items, value = .array items ∧ List.Forall₂ Method.Spells program.methods items) →
        value.depth < json.depth →
          value.list? (Method.ofJson? positional) = some program.methods := by
    rintro ⟨items, rfl, hitems⟩ -
    exact mapM_read (hitems.imp fun _ _ => Method.ofJson?_spelled)
  have hreadMethods := Json.required_eq hmethods hreadItems
  have hreadFields := defaulted_names hfields
  rw [Program.ofJson?]
  exact read_then hfound <| read_then hreadFields <| read_then hreadMethods rfl

/-- No two programs share a spelling. -/
theorem Program.Spells.unique {program other : Program} (h : program.Spells json)
    (hother : other.Spells json) : program = other := by
  have hread : Program.ofJson? false json = some program := Program.ofJson?_spelled h
  rw [Program.ofJson?_spelled hother] at hread
  exact (Option.some.inj hread).symm

/-! ## The form of the writer -/

open Json (Gives)

mutual

/-- What an expression is printed as is one of its spellings. -/
theorem Expr.spells_toJson : ∀ expr : Expr, expr.Spells expr.toJson
  | .int _ => ⟨_, rfl, rfl⟩
  | .bool _ => ⟨_, rfl, rfl⟩
  | .var _ => ⟨_, rfl, rfl⟩
  | .call call => ⟨_, rfl, call.spells_toJson⟩
  | .binary _ lhs rhs => ⟨_, rfl, Gives.isObject <|
      .given (Or.inl rfl) <| .given lhs.spells_toJson <| .given rhs.spells_toJson .nil⟩
  | .unary _ operand => ⟨_, rfl, Gives.isObject <|
      .given (Or.inl rfl) <| .given operand.spells_toJson .nil⟩

theorem Call.spells_toJson : ∀ call : Call, call.Spells call.toJson
  | .mk _ args _ => Or.inl <| Gives.isObject <|
      .given rfl <| .given ⟨_, rfl, argsSpell_argsToJson args⟩ <| .given rfl .nil

theorem Arg.spells_toJson : ∀ arg : Arg, arg.Spells arg.toJson
  | .expr value => ⟨_, rfl, value.spells_toJson⟩
  | .text _ => ⟨_, rfl, rfl⟩

theorem argsSpell_argsToJson : ∀ args : List Arg, argsSpell args (argsToJson args)
  | [] => rfl
  | arg :: args => ⟨_, _, rfl, arg.spells_toJson, argsSpell_argsToJson args⟩

end

mutual

/-- What a statement is printed as is one of its spellings. -/
theorem Stmt.spells_toJson : ∀ stmt : Stmt, stmt.Spells stmt.toJson
  | .assign _ _ value => ⟨_, rfl, Gives.isObject <|
      .given rfl <| .given (Or.inl rfl) <| .given value.spells_toJson .nil⟩
  | .call call => ⟨_, rfl, call.spells_toJson⟩
  | .cond cond thenBlock none => ⟨_, rfl, Gives.isObject <|
      .given cond.spells_toJson <| .given thenBlock.spells_toJson <| .given rfl .nil⟩
  | .cond cond thenBlock (some elseBlock) => ⟨_, rfl, Gives.isObject <|
      .given cond.spells_toJson <| .given thenBlock.spells_toJson <|
        .given elseBlock.spells_toJson .nil⟩
  | .whileLoop cond body => ⟨_, rfl, Gives.isObject <|
      .given cond.spells_toJson <| .given body.spells_toJson .nil⟩
  | .forLoop _ start bound body => ⟨_, rfl, Gives.isObject <|
      .given rfl <| .given start.spells_toJson <| .given bound.spells_toJson <|
        .given body.spells_toJson .nil⟩
  | .ret none => ⟨_, rfl, rfl⟩
  | .ret (some value) => ⟨_, rfl, value.spells_toJson⟩
  | .breakLoop => Or.inl rfl
  | .continueLoop => Or.inl rfl
  | .block block => ⟨_, rfl, block.spells_toJson⟩

theorem Block.spells_toJson : ∀ block : Block, block.Spells block.toJson
  | .mk _ stmts => Or.inl <| Gives.isObject <|
      .given rfl <| .given ⟨_, rfl, stmtsSpell_stmtsToJson stmts⟩ .nil

theorem stmtsSpell_stmtsToJson : ∀ stmts : List Stmt, stmtsSpell stmts (stmtsToJson stmts)
  | [] => rfl
  | stmt :: stmts => ⟨_, _, rfl, stmt.spells_toJson, stmtsSpell_stmtsToJson stmts⟩

end

theorem Method.spells_toJson (method : Method) : method.Spells method.toJson :=
  Or.inl <| Gives.isObject <|
    .given rfl <| .given rfl <| .given rfl <| .given method.body.spells_toJson .nil

/-- What a program is printed as is one of its spellings. -/
theorem Program.spells_toJson (program : Program) : program.Spells program.toJson := by
  have hmethods : List.Forall₂ Method.Spells program.methods (program.methods.map Method.toJson) :=
    List.forall₂_map_right_iff.mpr (List.forall₂_same.mpr fun method _ => method.spells_toJson)
  exact Or.inl <| Gives.isObject <| .given rfl <| .given ⟨_, rfl, hmethods⟩ .nil

/-! ## Programs come back -/

/-- **PROGRAMS COME BACK FROM EVERY SPELLING**: from the form the writer gives them, and
    from any that spells them, whether the fields of alternatives may be arrays or not. -/
theorem Program.read_spelled (positional : Bool) (program : Program) :
    Program.ofJson? positional program.toJson = some program ∧
      program.Spells program.toJson ∧
      ∀ json, program.Spells json → Program.ofJson? positional json = some program :=
  ⟨ofJson?_spelled program.spells_toJson, program.spells_toJson, fun _ => ofJson?_spelled⟩

/-- A method that counts to ten and says so. -/
def counting : Program where
  fields := []
  methods := [{
    name := "main"
    params := []
    returnsValue := false
    body := .mk ["i"] [.whileLoop (.bool true) (.mk [] [
      .assign "i" .addAssign (.int 1),
      .cond (.binary (.strict .eq) (.var "i") (.int 10))
        (.mk [] [.call (.mk "puts" [.text "ten"] true), .breakLoop]) none])] }]

/-- The program with its method, blocks and call as arrays, its words as objects, fields
    left out, and members that nothing asks for. -/
def countingRespelled : Json :=
  let step := .object [("assign", .object [("line", .int 3), ("target", .string "i"),
    ("op", .object [("add_assign", .null)]), ("value", .object [("int", .int 1)])])]
  let test := .object [("binary", .object [("op", .object [("eq", .null)]),
    ("lhs", .object [("var", .string "i")]), ("rhs", .object [("int", .int 10)]),
    ("type", .null)])]
  let say := .object [("call", .array [.string "puts",
    .array [.object [("str", .string "ten")]], .bool true])]
  let leave := .object [("if", .object [("cond", test),
    ("then", .array [.array [], .array [say, .object [("break", .null)]]])])]
  let loop := .object [("while", .object [("cond", .object [("bool", .bool true)]),
    ("body", .object [("stmts", .array [step, leave])])])]
  .object [("author", .null), ("methods", .array [.array [.string "main", .array [], .bool false,
    .array [.array [.string "i"], .array [loop]]]])]

/-- Objects and arrays are mixed, fields are left out, and unknown members are there. -/
theorem countingRespelled_spells : counting.Spells countingRespelled := by
  have hunknown {fields : List Field} {names : List String} (hnames : fields.map Field.name = names)
      {member : String × Json} (hmember : member.1 ∉ names) :
      ∀ other ∈ [member], other.1 ∉ fields.map Field.name := by
    intro other hmem
    rw [hnames, List.mem_singleton.mp hmem]
    exact hmember
  -- the program is an object with its methods only, and the method an array of its fields
  refine Or.inl ⟨_, _, [("author", .null)], rfl, (List.perm_append_singleton _ _).symm,
    .leftOut rfl <| .given ⟨_, rfl, .cons ?_ .nil⟩ .nil, hunknown rfl (by decide)⟩
  refine Or.inr ⟨_, rfl, .given rfl <| .given rfl <| .given rfl <| .given ?_ <|
    .leftOut (List.forall_mem_nil _)⟩
  -- so is its body, while the body of the loop is an object with its statements only
  refine Or.inr ⟨_, rfl, .given rfl <| .given ⟨_, rfl, _, _, rfl, ?loop, rfl⟩ <|
    .leftOut (List.forall_mem_nil _)⟩
  refine ⟨_, rfl, Gives.isObject <| .given ⟨_, rfl, rfl⟩ <| .given ?_ .nil⟩
  refine Or.inl (Gives.isObject <|
    .leftOut rfl <| .given ⟨_, rfl, _, _, rfl, ?step, _, _, rfl, ?leave, rfl⟩ .nil)
  case step =>
    exact ⟨_, rfl, _, _, [("line", .int 3)], rfl, (List.perm_append_singleton _ _).symm,
      .given rfl <| .given (Or.inr rfl) <| .given ⟨_, rfl, rfl⟩ .nil, hunknown rfl (by decide)⟩
  case leave =>
    refine ⟨_, rfl, Gives.isObject <| .given ?test <| .given ?thenBlock <| .leftOut trivial .nil⟩
    case test =>
      exact ⟨_, rfl, _, _, [("type", .null)], rfl, .refl _,
        .given (Or.inr rfl) <| .given ⟨_, rfl, rfl⟩ <| .given ⟨_, rfl, rfl⟩ .nil,
        hunknown rfl (by decide)⟩
    case thenBlock =>
      refine Or.inr ⟨_, rfl, .given rfl <| .given ⟨_, rfl, _, _, rfl, ?say, _, _, rfl,
        Or.inr rfl, rfl⟩ <| .leftOut (List.forall_mem_nil _)⟩
      exact ⟨_, rfl, Or.inr ⟨_, rfl, .given rfl <|
        .given ⟨_, rfl, _, _, rfl, ⟨_, rfl, rfl⟩, rfl⟩ <| .given rfl <|
          .leftOut (List.forall_mem_nil _)⟩⟩

/-- The respelled program is read as the same program by both readers. -/
theorem counting_comesBack :
    counting.Spells countingRespelled ∧
      Program.ofJson? true countingRespelled = some counting ∧
      Program.ofJson? false countingRespelled = some counting :=
  ⟨countingRespelled_spells,
    (Program.read_spelled true counting).2.2 countingRespelled countingRespelled_spells,
    (Program.read_spelled false counting).2.2 countingRespelled countingRespelled_spells⟩

end DecafBackend.Source

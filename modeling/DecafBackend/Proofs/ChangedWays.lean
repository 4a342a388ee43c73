import DecafBackend.Proofs.CommonTermsExactness
import DecafBackend.Proofs.Initialization
import DecafBackend.Proofs.RegularBodies

/-! # Ways through changed bodies

    Where statements are changed one by one, a way through what comes of a body goes
    along a way through the body itself: it passes what came of the statements on
    that way, and of the statement that it has come to, some pieces perhaps.

    * `Way.along`, `Way.along_flow` — what every move along a way keeps
    * `Pieces.skip` — statements of which nothing is left
    * `Pieces.Along`, `Along.leads` — one move
    * `Pieces.way_of` — ways from the entry to a piece -/

namespace DecafBackend.Body

variable {body after : Body} {pieces : Inst → List Inst}

/-! ## Moves along a way -/

/-- A way goes on with a move, over a statement or from the end of a block. -/
theorem Way.snoc {first point next : Point} {passed : List Inst} (h : body.Way first passed point)
    (hleads : body.Leads point next) :
    body.Way first (passed ++ point.rest.head?.toList) next := by
  refine h.append ?_
  cases hrest : point.rest with
  | nil => exact .leave hrest hleads (.stay _)
  | cons stmt rest => exact .pass hrest hleads (.stay _)

/-- **WHAT EVERY MOVE KEEPS** holds along a whole way. -/
theorem Way.along {P : List Inst → Point → Prop} {first last : Point} {passed : List Inst}
    (h : body.Way first passed last) (hfirst : P [] first)
    (hmove : ∀ {early point next}, body.Way first early point → P early point →
      body.Leads point next → P (early ++ point.rest.head?.toList) next) : P passed last := by
  -- the way so far is kept apart from what is still to come
  have hfar : ∀ {point early}, body.Way first early point → P early point →
      ∀ {passed}, body.Way point passed last → P (early ++ passed) last := by
    intro point early hearly hpoint passed hway
    induction hway generalizing early with
    | stay point => exact (List.append_nil early).symm ▸ hpoint
    | pass hrest hleads _ ih | leave hrest hleads _ ih =>
        have hnext := ih h (hearly.snoc hleads) (hmove hearly hpoint hleads)
        rw [hrest, List.append_assoc] at hnext
        exact hnext
  exact @hfar first [] (.stay first) hfirst passed h

/-- What holds at the entry, is carried over statements, and along the edges of the
    flow graph, holds along every way from the entry. -/
theorem Way.along_flow {P : List Inst → Point → Prop} {graph : FlowGraph} {last : Point}
    {passed : List Inst} (wf : WellFormed body) (hflow : graph.Of body)
    (h : body.Way (body.startOf ⟨0⟩) passed last) (hfirst : P [] (body.startOf ⟨0⟩))
    (hover : ∀ {early block stmt rest}, body.Way (body.startOf ⟨0⟩) early ⟨block, stmt :: rest⟩ →
      body.At block (stmt :: rest) → P early ⟨block, stmt :: rest⟩ →
        P (early ++ [stmt]) ⟨block, rest⟩)
    (hedge : ∀ {early block target}, block.index < body.blocks.size →
      target.index < body.blocks.size → target ∈ graph.successors block → P early ⟨block, []⟩ →
        P early (body.startOf target)) : P passed last := by
  -- within a block a statement is passed; between blocks the edge is one of the graph
  refine h.along hfirst fun {early point next} hway hpoint hleads => ?_
  have hat := hway.at wf (At.start wf.blocks_pos)
  have hlt := (wf.at_leads hat hleads).block_lt
  obtain ⟨block, rest⟩ := point
  rcases wf.leads_cases hflow hat hleads with ⟨hblock, stmt, hrest⟩ | ⟨hstart, htarget, hend⟩
  · obtain ⟨block', rest'⟩ := next
    cases hblock
    cases hrest
    exact hover hway hat hpoint
  · rw [hstart]
    rcases hend with hnil | ⟨stmt, command, label, hone, -⟩
    · cases hnil
      exact (List.append_nil early).symm ▸ hedge hat.block_lt hlt htarget hpoint
    · cases hone
      exact hedge hat.block_lt hlt htarget (hover hway hat hpoint)

/-- Ways from the start of a block go over statements of the body. -/
theorem Way.mem_stmts (wf : WellFormed body) {first last : Point} {passed : List Inst}
    (h : body.Way first passed last) (hat : body.At first.block first.rest) :
    ∀ stmt ∈ passed, stmt ∈ body.stmts := by
  induction h with
  | stay point => exact nofun
  | @pass point next last stmt rest passed hrest hleads _ ih =>
      intro other hother
      rcases List.mem_cons.mp hother with rfl | hother
      · exact mem_stmts_of_stmtsOf (At.mem (hrest ▸ hat))
      · exact ih (wf.at_leads hat hleads) other hother
  | leave hrest hleads _ ih => exact ih (wf.at_leads hat hleads)

/-! ## What comes of the statements on a way -/

namespace Pieces

/-- A statement of which nothing is left lets control through. -/
theorem falls_of_nil (h : Pieces body after pieces) {stmt : Inst} {command : Command}
    (hstmt : stmt ∈ body.stmts) (hcommand : body.command? stmt = some command)
    (hnil : pieces stmt = []) : command.isTerminator = false := by
  cases hends : command.endsBlock with
  | true =>
      obtain ⟨⟨more, hmore⟩, -⟩ := h.ender hstmt hcommand hends
      cases hnil.symm.trans hmore
  | false => exact Command.isTerminator_eq_false hends

/-- What ends a block is all that is left of it. -/
theorem pieces_of_ender (h : Pieces body after pieces) {block : Block} {before tail : List Inst}
    {stmt : Inst} {command : Command} (hsplit : body.stmtsOf block = before ++ stmt :: tail)
    (hcommand : body.command? stmt = some command) (hends : command.endsBlock = true) :
    pieces stmt = [stmt] := by
  have hstmt : stmt ∈ body.stmts :=
    Body.mem_stmts_of_stmtsOf (hsplit ▸ List.mem_append_right _ List.mem_cons_self)
  obtain ⟨⟨more, hmore⟩, new, hnew, hends', -⟩ := h.ender hstmt hcommand hends
  have hafter : after.stmtsOf block =
      before.flatMap pieces ++ stmt :: (more ++ tail.flatMap pieces) := by
    rw [h.stmtsOf, hsplit, List.flatMap_append, List.flatMap_cons, hmore]
    rfl
  have hnil := h.wellFormed.enders hafter hnew hends'
  rw [hmore, (List.append_eq_nil_iff.mp hnil).1]

/-- A piece that ends its block is the statement, which ends its block as well. -/
theorem ender_of_piece (h : Pieces body after pieces) {block : Block}
    {before tail front back : List Inst} {stmt piece : Inst} {command new : Command}
    (hsplit : body.stmtsOf block = before ++ stmt :: tail)
    (hcommand : body.command? stmt = some command) (hpieces : pieces stmt = front ++ piece :: back)
    (hnew : after.command? piece = some new) (hends : new.endsBlock = true) :
    front = [] ∧ piece = stmt ∧ back = [] ∧ new.target? = command.target? := by
  have hstmt : stmt ∈ body.stmts :=
    Body.mem_stmts_of_stmtsOf (hsplit ▸ List.mem_append_right _ List.mem_cons_self)
  have hpiece : piece ∈ pieces stmt := hpieces ▸ List.mem_append_right _ List.mem_cons_self
  have hends' := (h.yields hstmt hcommand hpiece hnew).ends hends
  rw [h.pieces_of_ender hsplit hcommand hends', List.singleton_eq_append_iff] at hpieces
  obtain ⟨rfl, hone⟩ | ⟨-, hnil⟩ := hpieces
  · cases hone
    obtain ⟨-, new', hnew', -, htarget, -⟩ := h.ender hstmt hcommand hends'
    cases hnew.symm.trans hnew'
    exact ⟨rfl, rfl, rfl, htarget⟩
  · cases hnil

/-- A statement with a piece that lets control through lets it through. -/
theorem falls_of_piece (h : Pieces body after pieces) {block : Block} {before tail : List Inst}
    {stmt piece : Inst} {command new : Command}
    (hsplit : body.stmtsOf block = before ++ stmt :: tail)
    (hcommand : body.command? stmt = some command) (hpiece : piece ∈ pieces stmt)
    (hnew : after.command? piece = some new) (hfalls : new.isTerminator = false) :
    command.isTerminator = false := by
  refine Bool.eq_false_iff.mpr fun hterminator => ?_
  have hends := Command.endsBlock_of_isTerminator hterminator
  rw [h.pieces_of_ender hsplit hcommand hends, List.mem_singleton] at hpiece
  subst hpiece
  have hstmt := Body.mem_stmts_of_stmtsOf (hsplit ▸ List.mem_append_right _ List.mem_cons_self)
  obtain ⟨-, new', hnew', -, -, hsame⟩ := h.ender hstmt hcommand hends
  cases hnew.symm.trans hnew'
  cases hfalls.symm.trans (hsame.trans hterminator)

/-- Control goes on over statements of which nothing is left. -/
theorem skip (h : Pieces body after pieces) (wf : WellFormed body) {first : Point} {block : Block}
    {passed rest : List Inst} (hat : body.At block rest)
    (hway : body.Way first passed ⟨block, rest⟩) :
    ∃ passed' rest', body.Way first passed' ⟨block, rest'⟩ ∧ body.At block rest' ∧
      passed'.flatMap pieces = passed.flatMap pieces ∧
      rest'.flatMap pieces = rest.flatMap pieces ∧
      (rest' = [] ∨ ∃ stmt tail, rest' = stmt :: tail ∧ pieces stmt ≠ []) := by
  induction rest generalizing passed with
  | nil => exact ⟨passed, [], hway, hat, rfl, rfl, Or.inl rfl⟩
  | cons stmt tail ih =>
      cases hpieces : pieces stmt with
      | cons piece more =>
          exact ⟨passed, stmt :: tail, hway, hat, rfl, rfl,
            Or.inr ⟨stmt, tail, rfl, by rw [hpieces]; exact List.cons_ne_nil _ _⟩⟩
      | nil =>
          obtain ⟨command, hcommand, -⟩ := wf.command_of_mem hat.mem
          have hfalls := h.falls_of_nil (Body.mem_stmts_of_stmtsOf hat.mem) hcommand hpieces
          obtain ⟨passed', rest', hway', hat', hpassed, hrest, hstop⟩ :=
            ih (hat.next hcommand hfalls)
              (hway.append (.pass rfl (.fall hcommand hfalls) (.stay _)))
          refine ⟨passed', rest', hway', hat', ?_, ?_, hstop⟩
          · rw [hpassed, List.flatMap_append, List.flatMap_singleton, hpieces, List.append_nil]
          · rw [hrest, List.flatMap_cons, hpieces]
            rfl

/-- Where a way through the changed body is, as seen from the body: between two
    statements, or behind some of the pieces of one that lets control through. -/
def Along (body : Body) (pieces : Inst → List Inst) (first : Point) (passed' : List Inst)
    (point : Point) : Prop :=
  ∃ passed rest, body.Way first passed ⟨point.block, rest⟩ ∧ body.At point.block rest ∧
    ((passed' = passed.flatMap pieces ∧ point.rest = rest.flatMap pieces) ∨
      ∃ stmt tail front back command, rest = stmt :: tail ∧ pieces stmt = front ++ back ∧
        passed' = passed.flatMap pieces ++ front ∧ point.rest = back ++ tail.flatMap pieces ∧
        body.command? stmt = some command ∧ command.isTerminator = false)

/-- The same with nothing in between that leaves no pieces: control is at the end of
    a block, or at a piece of a statement. -/
def Settled (body : Body) (pieces : Inst → List Inst) (first : Point) (passed' : List Inst)
    (point : Point) : Prop :=
  (point.rest = [] ∧ ∃ passed, body.Way first passed ⟨point.block, []⟩ ∧
      body.At point.block [] ∧ passed' = passed.flatMap pieces) ∨
    ∃ piece passed stmt tail front back, point.rest = piece :: (back ++ tail.flatMap pieces) ∧
      body.Way first passed ⟨point.block, stmt :: tail⟩ ∧ body.At point.block (stmt :: tail) ∧
      pieces stmt = front ++ piece :: back ∧ passed' = passed.flatMap pieces ++ front

namespace Along

variable {first : Point} {passed' : List Inst}

theorem settle (h : Pieces body after pieces) (wf : WellFormed body) {point : Point}
    (halong : Along body pieces first passed' point) :
    Settled body pieces first passed' point := by
  -- between statements, those of which nothing is left are skipped first
  have hbetween : ∀ {passed rest}, body.Way first passed ⟨point.block, rest⟩ →
      body.At point.block rest → passed' = passed.flatMap pieces →
      point.rest = rest.flatMap pieces → Settled body pieces first passed' point := by
    intro passed rest hway hat hpassed hrest
    obtain ⟨passed₁, rest₁, hway₁, hat₁, hpassed₁, hrest₁, hstop⟩ := h.skip wf hat hway
    rw [← hpassed₁] at hpassed
    rw [← hrest₁] at hrest
    rcases hstop with rfl | ⟨stmt, tail, rfl, hsome⟩
    · exact Or.inl ⟨hrest, passed₁, hway₁, hat₁, hpassed⟩
    · obtain ⟨piece, back, hpieces⟩ := List.exists_cons_of_ne_nil hsome
      refine Or.inr ⟨piece, passed₁, stmt, tail, [], back, ?_, hway₁, hat₁, hpieces, ?_⟩
      · rw [hrest, List.flatMap_cons, hpieces]
        rfl
      · rw [hpassed, List.append_nil]
  obtain ⟨passed, rest, hway, hat, ⟨hpassed, hrest⟩ | ⟨stmt, tail, front, back, command, rfl,
    hpieces, hpassed, hrest, hcommand, hfalls⟩⟩ := halong
  · exact hbetween hway hat hpassed hrest
  · cases back with
    | cons piece back =>
        exact Or.inr ⟨piece, passed, stmt, tail, front, back, hrest, hway, hat, hpieces, hpassed⟩
    | nil =>
        -- all pieces of the statement are behind
        refine hbetween (hway.append (.pass rfl (.fall hcommand hfalls) (.stay _)))
          (hat.next hcommand hfalls) ?_ hrest
        rw [hpassed, List.flatMap_append, List.flatMap_singleton, hpieces, List.append_nil]

/-- At the start of a block, control stands behind what led there. -/
theorem startOf (h : Pieces body after pieces) {target : Block} {passed : List Inst}
    (hway : body.Way first passed (body.startOf target)) (hlt : target.index < body.blocks.size) :
    Along body pieces first (passed.flatMap pieces) (after.startOf target) :=
  ⟨passed, body.stmtsOf target, hway, At.start hlt, Or.inl ⟨rfl, h.stmtsOf target⟩⟩

/-- **ONE MOVE** through the changed body. -/
theorem leads (h : Pieces body after pieces) (wf : WellFormed body) {point next : Point}
    (halong : Along body pieces first passed' point) (hleads : after.Leads point next) :
    Along body pieces first (passed' ++ point.rest.head?.toList) next := by
  rcases halong.settle h wf with ⟨hrest, passed, hway, hat, rfl⟩ |
    ⟨piece, passed, stmt, tail, front, back, hrest, hway, hat, hpieces, rfl⟩
  · -- control leaves the block
    obtain ⟨block, rest⟩ := point
    cases hrest
    cases hleads with
    | @leave _ target hnext =>
        rw [next?_congr h.size] at hnext
        have hleads : body.Leads ⟨block, []⟩ (body.startOf target) := .leave hnext
        have hlt := (wf.at_leads hat hleads).block_lt
        refine (List.append_nil _).symm ▸ startOf h ?_ hlt
        have hfar := hway.append (.leave rfl hleads (.stay _))
        rwa [List.append_nil] at hfar
  -- a piece falls where its statement falls, and jumps where its statement jumps
  · obtain ⟨command, hcommand, -⟩ := wf.command_of_mem hat.mem
    obtain ⟨before, hsplit, -⟩ := hat.reached
    obtain ⟨block, rest⟩ := point
    cases hrest
    cases hleads with
    | @fall _ _ _ new hnew hfalls =>
        have hfalls' := h.falls_of_piece hsplit hcommand
          (hpieces ▸ List.mem_append_right _ List.mem_cons_self) hnew hfalls
        refine ⟨passed, stmt :: tail, hway, hat,
          Or.inr ⟨stmt, tail, front ++ [piece], back, command,
          rfl, ?_, ?_, rfl, hcommand, hfalls'⟩⟩
        · rw [hpieces, List.append_assoc]
          rfl
        · rw [List.append_assoc]
          rfl
    | @jump _ target _ _ new label hnew hlabel hplaced =>
        -- a jump ends its block, so the piece is all that is left of its statement
        obtain ⟨rfl, rfl, rfl, htarget⟩ :=
          h.ender_of_piece hsplit hcommand hpieces hnew (Command.endsBlock_of_target hlabel)
        rw [h.labels] at hplaced
        have hleads : body.Leads ⟨block, piece :: tail⟩ (body.startOf target) :=
          .jump hcommand (htarget ▸ hlabel) hplaced
        have hlt := (wf.at_leads hat hleads).block_lt
        have hfar := startOf h (hway.append (.pass rfl hleads (.stay _))) hlt
        rw [List.flatMap_append, List.flatMap_singleton, hpieces] at hfar
        rw [List.append_nil]
        exact hfar

end Along

/-- **WAYS THROUGH THE CHANGED BODY** go along ways through the body: at a piece of a
    statement, what came of all statements before has been passed, and the pieces in
    front of this one. -/
theorem way_of (h : Pieces body after pieces) (wf : WellFormed body) {passed' more : List Inst}
    {block : Block} {piece : Inst}
    (hway : after.Way (after.startOf ⟨0⟩) passed' ⟨block, piece :: more⟩) :
    ∃ passed stmt tail front back, body.Way (body.startOf ⟨0⟩) passed ⟨block, stmt :: tail⟩ ∧
      body.At block (stmt :: tail) ∧ pieces stmt = front ++ piece :: back ∧
      passed' = passed.flatMap pieces ++ front := by
  have halong : Along body pieces (body.startOf ⟨0⟩) passed' ⟨block, piece :: more⟩ :=
    hway.along (Along.startOf h (.stay _) wf.blocks_pos) fun _ halong hleads =>
      halong.leads h wf hleads
  rcases halong.settle h wf with ⟨hnil, -⟩ |
    ⟨piece', passed, stmt, tail, front, back, hrest, hbody, hat, hpieces, hpassed⟩
  · cases hnil
  · cases hrest
    exact ⟨passed, stmt, tail, front, back, hbody, hat, hpieces, hpassed⟩

/-- What a way through the body saves, the way through the changed body saves as
    well, if no save is taken away. -/
theorem savedBy_subset {passed : List Inst}
    (hsaves : ∀ stmt ∈ passed, ∀ loc, body.Saves stmt loc →
      ∃ piece ∈ pieces stmt, after.Saves piece loc) :
    body.savedBy passed ⊆ after.savedBy (passed.flatMap pieces) := by
  rintro loc ⟨stmt, hstmt, hsave⟩
  obtain ⟨piece, hpiece, hsave⟩ := hsaves stmt hstmt loc hsave
  exact ⟨piece, List.mem_flatMap.mpr ⟨stmt, hstmt, hpiece⟩, hsave⟩

end Pieces

end DecafBackend.Body

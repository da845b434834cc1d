import M4KK1.Yafs.FileCalls

/-!
# Room for the blocks of a file

Tree code reads tree nodes only, so a device with its data blanked tells how many blocks fit.
-/

namespace M4KK1.Yafs

open Lib Function

def Block.bare : Block → Block
  | .zero => .zero
  | .node image => .node image
  | .inode _ => .inode ⟨0, 0, 0, 0, 0, 0, 0, []⟩
  | .data _ => .data fun _ => 0

/-- A device whose data and records are blanked. -/
def Device.bare (device : Device) : Device :=
  { device with blocks := fun lba => (device.blocks lba).bare }

/-- A state whose data and records are blanked. -/
def BtreeState.bare (state : BtreeState) : BtreeState := ⟨state.device.bare, state.rootLba⟩

def CallOut.bare (out : CallOut) : CallOut := { out with state := out.state.bare }

/-- The result of a tree operation, with its device blanked. -/
def bareOut {α : Type} (out : Device × α) : Device × α := (out.1.bare, out.2)

theorem Device.bare_update (device : Device) (lba next total : Nat) (block : Block) :
    (⟨update device.blocks lba block, next, total⟩ : Device).bare =
      ⟨update device.bare.blocks lba block.bare, next, total⟩ := by
  have same : (fun other => (update device.blocks lba block other).bare) =
      update (fun other => (device.blocks other).bare) lba block.bare := by
    funext other
    by_cases here : other = lba
    · rw [here, update_self, update_self]
    · rw [update_of_ne here, update_of_ne here]
  exact congrArg (Device.mk · next total) same

theorem devAllocBlock_bare (device : Device) :
    devAllocBlock device.bare = bareOut (devAllocBlock device) := by
  unfold devAllocBlock
  by_cases full : device.nextFreeBlock ≥ ramdiskBlocks
  · rw [if_pos full, if_pos (show device.bare.nextFreeBlock ≥ ramdiskBlocks from full)]
    rfl
  · rw [if_neg full, if_neg (show ¬device.bare.nextFreeBlock ≥ ramdiskBlocks from full), bareOut,
      device.bare_update]
    rfl

theorem devFreeBlock_bare (device : Device) (lba : Nat) :
    devFreeBlock device.bare lba = (devFreeBlock device lba).bare := by
  unfold devFreeBlock
  by_cases some : device.totalAllocated > 0
  · rw [if_pos some, if_pos (show device.bare.totalAllocated > 0 from some)]
    rfl
  · rw [if_neg some, if_neg (show ¬device.bare.totalAllocated > 0 from some)]

theorem devWrite_bare (device : Device) (lba : Nat) (block : Block) :
    devWrite device.bare lba block.bare = bareOut (devWrite device lba block) := by
  unfold devWrite
  by_cases outside : lba ≥ ramdiskBlocks
  · rw [if_pos outside, if_pos outside]
    rfl
  · rw [if_neg outside, if_neg outside, bareOut, device.bare_update]
    rfl

theorem nodeRead_bare (device : Device) (lba : Nat) :
    nodeRead device.bare lba = nodeRead device lba := by
  unfold nodeRead devRead
  by_cases outside : lba ≥ ramdiskBlocks
  · rw [if_pos outside, if_pos outside]
  · rw [if_neg outside, if_neg outside]
    have same : (device.bare.blocks lba).asNode = (device.blocks lba).asNode := by
      show (device.blocks lba).bare.asNode = _
      cases device.blocks lba <;> rfl
    dsimp only
    rw [same]

theorem nodeWrite_bare (device : Device) (node : Node) :
    nodeWrite device.bare node = bareOut (nodeWrite device node) := by
  unfold nodeWrite
  rw [devAllocBlock_bare]
  cases devAllocBlock device with
  | mk taken lba =>
    dsimp only [bareOut]
    by_cases none : lba = 0
    · rw [if_pos none, if_pos none]
    · rw [if_neg none, if_neg none]
      have written := devWrite_bare taken lba (.node node)
      rw [Block.bare] at written
      rw [written]
      cases devWrite taken lba (.node node) with
      | mk after done =>
        cases done with
        | true => rfl
        | false =>
          dsimp only [bareOut]
          rw [devFreeBlock_bare]

section Results

variable {α β γ : Type}

theorem map_bind (first : Except Fault α) (next : α → Except Fault β) (f : β → γ) :
    (first >>= next).map f = first >>= fun value => (next value).map f := by
  cases first <;> rfl

theorem bind_map (first : Except Fault α) (f : α → β) (next : β → Except Fault γ) :
    first.map f >>= next = first >>= fun value => next (f value) := by
  cases first <;> rfl

theorem map_ite (condition : Prop) [Decidable condition] (first second : Except Fault α)
    (f : α → β) :
    (if condition then first else second).map f = if condition then first.map f
    else second.map f := by
  split <;> rfl

end Results

theorem writeHalves_bare (device : Device) (left right : Node) (splitKey : Nat) (inserted : Bool) :
    writeHalves device.bare left right splitKey inserted =
      bareOut (writeHalves device left right splitKey inserted) := by
  unfold writeHalves
  rw [nodeWrite_bare]
  cases nodeWrite device right with
  | mk first rightLba =>
    dsimp only [bareOut]
    by_cases noRight : rightLba = 0
    · rw [if_pos noRight, if_pos noRight]
    · rw [if_neg noRight, if_neg noRight, nodeWrite_bare]
      cases nodeWrite first left with
      | mk second leftLba =>
        by_cases noLeft : leftLba = 0
        · simp only [bareOut, noLeft, if_true, devFreeBlock_bare]
        · simp only [bareOut, noLeft, if_false]

theorem writeWhole_bare (device : Device) (node : Node) (inserted : Bool) :
    writeWhole device.bare node inserted = bareOut (writeWhole device node inserted) := by
  unfold writeWhole
  rw [nodeWrite_bare]
  cases nodeWrite device node with
  | mk after lba =>
    dsimp only [bareOut]
    split <;> rfl

theorem leafStore_bare (device : Device) (level : Nat) (leaf : LeafPayload) (entryCount : Nat)
    (inserted : Bool) :
    leafStore device.bare level leaf entryCount inserted =
      (leafStore device level leaf entryCount inserted).map bareOut := by
  simp only [leafStore, writeHalves_bare, writeWhole_bare, map_ite, map_bind]
  rfl

theorem internalStore_bare (device : Device) (level : Nat) (internal : InternalPayload)
    (entryCount : Nat)
    (inserted : Bool) :
    internalStore device.bare level internal entryCount inserted =
      (internalStore device level internal entryCount inserted).map bareOut := by
  simp only [internalStore, writeHalves_bare, writeWhole_bare, map_ite, map_bind]
  rfl

theorem btreeInsertNode_bare (fuel : Nat) (device : Device) (lba key value : Nat) :
    btreeInsertNode fuel device.bare lba key value =
      (btreeInsertNode fuel device lba key value).map bareOut := by
  induction fuel generalizing device lba with
  | zero => rfl
  | succ fuel ih =>
    unfold btreeInsertNode
    rw [nodeRead_bare, map_bind]
    refine congrArg _ (funext fun read => ?_)
    cases read with
    | none => rfl
    | some node =>
      dsimp only
      cases node.payload with
      | leaf leaf =>
        dsimp only
        simp only [map_bind, map_ite, leafStore_bare]
      | internal internal =>
        dsimp only
        simp only [map_bind, map_ite, ih, bind_map, bareOut, internalStore_bare]
        rfl

theorem btreeInsert_bare (state : BtreeState) (key value : Nat) :
    btreeInsert state.bare key value = (btreeInsert state key value).map CallOut.bare := by
  unfold btreeInsert
  rw [map_ite]
  refine if_congr Iff.rfl ?_ ?_
  · simp only [map_bind, BtreeState.bare, nodeWrite_bare, map_ite, bareOut]
    rfl
  · simp only [BtreeState.bare, btreeInsertNode_bare, nodeWrite_bare, devFreeBlock_bare, map_bind,
      bind_map,
      map_ite, bareOut]
    rfl

theorem btreeLookupLoop_bare (device : Device) (key fuel : Nat) (seen : List Nat) (current : Nat) :
    btreeLookupLoop device.bare key fuel seen current =
      btreeLookupLoop device key fuel seen current := by
  induction fuel generalizing seen current with
  | zero => rfl
  | succ fuel ih =>
    unfold btreeLookupLoop
    simp only [nodeRead_bare, ih]

theorem btreeLookup_bare (state : BtreeState) (key : Nat) :
    btreeLookup state.bare.device state.bare.rootLba key =
      btreeLookup state.device state.rootLba key := by
  unfold btreeLookup
  rw [BtreeState.bare, btreeLookupLoop_bare]

/-- The state with a new block of data filed for an index, if the device has the blocks for it. -/
def fileNew (state : BtreeState) (inode index : Nat) (bytes : Nat → UInt8) :
    Except Fault (Option BtreeState) :=
  let (device, lba) := devAllocBlock state.device
  if lba = 0 then return none
  else do
    let (device, _) := devWrite device lba (.data bytes)
    let out ← btreeInsert ⟨device, state.rootLba⟩ (extentKey inode index)
      (extentPack lba blocksPerExtent)
    if out.ok then return some out.state else return none

/-- The state with the file's block there; `none`: the device lacks the blocks. -/
def provide (state : BtreeState) (inode index : Nat) : Except Fault (Option BtreeState) := do
  match extentBlock (← btreeLookup state.device state.rootLba (extentKey inode index)) with
  | some _ => return some state
  | none => fileNew state inode index fun _ => 0

/-- The device has the blocks for so many blocks of a file from an index on. -/
def HasRoom (inode : Nat) : Nat → BtreeState → Nat → Prop
  | 0, _, _ => True
  | count + 1, state, index =>
    ∃ next, provide state inode index = .ok (some next) ∧ HasRoom inode count next (index + 1)

variable {inode count index : Nat} {state' : BtreeState} {device : Device} {offset : Nat}

theorem HasRoom.mono {fewer : Nat} (le : fewer ≤ count) {state : BtreeState}
    (room : HasRoom inode count state index) : HasRoom inode fewer state index := by
  induction count generalizing fewer state index with
  | zero =>
    rw [Nat.le_zero.mp le]
    trivial
  | succ count ih =>
    cases fewer with
    | zero => trivial
    | succ fewer =>
      obtain ⟨next, provided, rest⟩ := room
      exact ⟨next, provided, ih (Nat.le_of_succ_le_succ le) rest⟩

theorem btreeInsert_congr {state : BtreeState} (same : state.bare = state'.bare) {key value : Nat}
    {out : CallOut} (ran : btreeInsert state key value = .ok out) :
    ∃ out', btreeInsert state' key value = .ok out' ∧ out'.ok = out.ok ∧
      out'.state.bare = out.state.bare := by
  have bare := btreeInsert_bare state key value
  rw [same, btreeInsert_bare, ran] at bare
  cases ran' : btreeInsert state' key value with
  | error fault =>
    rw [ran'] at bare
    cases bare
  | ok out' =>
    rw [ran'] at bare
    have sameOut : out'.bare = out.bare := Except.ok.inj bare
    have sameOk : out'.bare.ok = out.bare.ok := congrArg CallOut.ok sameOut
    have sameState : out'.bare.state = out.bare.state := congrArg CallOut.state sameOut
    exact ⟨out', rfl, sameOk, sameState⟩

theorem btreeLookup_congr {state : BtreeState} (same : state.bare = state'.bare) (key : Nat) :
    btreeLookup state'.device state'.rootLba key = btreeLookup state.device state.rootLba key := by
  rw [← btreeLookup_bare state', ← same, btreeLookup_bare]

theorem bare_writeData {lba : Nat} {old : Nat → UInt8}
    (image : device.blocks lba = .data old) (bytes : Nat → UInt8) :
    ({ device with blocks := update device.blocks lba (.data bytes) } : Device).bare =
      device.bare := by
  have same : device.bare.blocks lba = .data fun _ => 0 := by
    show (device.blocks lba).bare = _
    rw [image]
    rfl
  rw [device.bare_update, Block.bare, ← same, update_eq_self]
  rfl

theorem devAllocBlock_congr {device' : Device} (same : device.bare = device'.bare) :
    (devAllocBlock device').2 = (devAllocBlock device).2 ∧
      (devAllocBlock device').1.bare = (devAllocBlock device).1.bare := by
  have bare : bareOut (devAllocBlock device') = bareOut (devAllocBlock device) := by
    rw [← devAllocBlock_bare, ← same, devAllocBlock_bare]
  have lba : (bareOut (devAllocBlock device')).2 = (bareOut (devAllocBlock device)).2 :=
    congrArg Prod.snd bare
  have taken : (bareOut (devAllocBlock device')).1 = (bareOut (devAllocBlock device)).1 :=
    congrArg Prod.fst bare
  exact ⟨lba, taken⟩

theorem devWrite_congr {device' : Device} (same : device.bare = device'.bare) (lba : Nat)
    {block block' : Block} (sameBlock : block.bare = block'.bare) :
    (devWrite device' lba block').1.bare = (devWrite device lba block).1.bare := by
  have bare : bareOut (devWrite device' lba block') = bareOut (devWrite device lba block) := by
    rw [← devWrite_bare, ← same, ← sameBlock, devWrite_bare]
  have written : (bareOut (devWrite device' lba block')).1 =
      (bareOut (devWrite device lba block)).1 :=
    congrArg Prod.fst bare
  exact written

theorem fileNew_congr {state : BtreeState} (same : state.bare = state'.bare)
    (bytes bytes' : Nat → UInt8) {result : Option BtreeState}
    (ran : fileNew state inode index bytes = .ok result) :
    ∃ result', fileNew state' inode index bytes' = .ok result' ∧
      result'.map BtreeState.bare = result.map BtreeState.bare := by
  have sameDevice : state.device.bare = state'.device.bare := congrArg BtreeState.device same
  have sameBareRoot : state.bare.rootLba = state'.bare.rootLba := congrArg BtreeState.rootLba same
  have sameRoot : state.rootLba = state'.rootLba := sameBareRoot
  obtain ⟨sameLba, sameTaken⟩ := devAllocBlock_congr sameDevice
  unfold fileNew at ran ⊢
  dsimp only at ran ⊢
  rw [sameLba]
  by_cases full : (devAllocBlock state.device).2 = 0
  · rw [if_pos full] at ran ⊢
    cases ran
    exact ⟨none, rfl, rfl⟩
  · rw [if_neg full] at ran ⊢
    obtain ⟨out, inserted, ran⟩ := bind_ok ran
    have sameStored := devWrite_congr sameTaken.symm (devAllocBlock state.device).2
      (show (Block.data bytes).bare = (Block.data bytes').bare from rfl)
    have sameState :
      BtreeState.bare ⟨(devWrite (devAllocBlock state.device).1 (devAllocBlock state.device).2
          (.data bytes)).1, state.rootLba⟩ =
        BtreeState.bare ⟨(devWrite (devAllocBlock state'.device).1 (devAllocBlock state.device).2
          (.data bytes')).1, state'.rootLba⟩ := by
      rw [BtreeState.bare, BtreeState.bare, sameStored, sameRoot]
    obtain ⟨out', inserted', sameOk, sameAfter⟩ := btreeInsert_congr sameState inserted
    rw [inserted', ok_bind, sameOk]
    cases ok : out.ok with
    | false =>
      rw [ok] at ran
      cases ran
      exact ⟨none, rfl, rfl⟩
    | true =>
      rw [ok] at ran
      cases ran
      exact ⟨some out'.state, rfl, congrArg some sameAfter⟩

theorem provide_congr {state : BtreeState} (same : state.bare = state'.bare)
    {result : Option BtreeState} (provided : provide state inode index = .ok result) :
    ∃ result', provide state' inode index = .ok result' ∧
      result'.map BtreeState.bare = result.map BtreeState.bare := by
  unfold provide at provided ⊢
  rw [btreeLookup_congr same]
  obtain ⟨found, looked, provided⟩ := bind_ok provided
  rw [looked, ok_bind]
  cases block : extentBlock found with
  | some lba =>
    rw [block] at provided
    cases provided
    exact ⟨some state', rfl, congrArg some same.symm⟩
  | none =>
    rw [block] at provided
    exact fileNew_congr same _ _ provided

theorem HasRoom.congr {state : BtreeState} (same : state.bare = state'.bare)
    (room : HasRoom inode count state index) : HasRoom inode count state' index := by
  induction count generalizing state state' index with
  | zero => trivial
  | succ count ih =>
    obtain ⟨next, provided, rest⟩ := room
    obtain ⟨result, provided', sameNext⟩ := provide_congr same provided
    cases result with
    | none => cases sameNext
    | some next' => exact ⟨next', provided', ih (Option.some.inj sameNext).symm rest⟩

variable {state : BtreeState} {height : Nat} {bindings : Nat → Option Nat}

theorem writeChunk_provide (inv : YafsInv state height bindings) {chunk : List UInt8}
    {out : BtreeState × Bool} (ran : writeChunk state inode index offset chunk = .ok out) :
    (out.2 = true ∧ ∃ next, provide state inode index = .ok (some next) ∧ next.bare = out.1.bare) ∨
      (out.2 = false ∧ provide state inode index = .ok none) := by
  have tag := keyTag_extentKey inode index
  unfold writeChunk at ran
  unfold provide
  rw [inv.rep.lookup, ok_bind] at ran ⊢
  cases bound : bindings (extentKey inode index) with
  | some extent =>
    obtain ⟨bytes, image, _, read, single⟩ := inv.dataRead_eq tag bound
    have block : extentBlock (some extent) = some (extentLba extent) := by
      rw [extentBlock, single, if_neg Nat.one_ne_zero]
    have writable : ¬extentLba extent ≥ ramdiskBlocks := by
      have := (inv.filed.extent tag bound).2.1
      have := inv.rep.limit
      omega
    have stored (bytes' : Nat → UInt8) : devWrite state.device (extentLba extent) (.data bytes') =
        (_, true) :=
      if_neg writable
    rw [bound, block] at ran
    rw [block]
    dsimp only at ran ⊢
    by_cases whole : offset = 0 ∧ chunk.length = dataBlockSize
    · rw [if_pos whole, stored] at ran
      cases ran
      exact .inl ⟨rfl, state, rfl,
        congrArg (BtreeState.mk · state.rootLba) (bare_writeData image _).symm⟩
    · rw [if_neg whole, read, ok_bind] at ran
      dsimp only at ran
      rw [stored] at ran
      cases ran
      exact .inl ⟨rfl, state, rfl,
        congrArg (BtreeState.mk · state.rootLba) (bare_writeData image _).symm⟩
  | none =>
    rw [bound] at ran
    dsimp only [extentBlock] at ran ⊢
    have positive := inv.rep.positive
    cases devAllocBlock_stocked inv.rep.limit (.data (overlay (fun _ => 0) offset chunk)) with
    | full used alloc =>
      rw [alloc] at ran
      cases ran
      refine .inr ⟨rfl, ?_⟩
      rw [fileNew, alloc]
      rfl
    | stored taken stored room alloc write frame next image =>
      rw [alloc] at ran
      dsimp only at ran
      rw [if_neg (by omega), write] at ran
      dsimp only at ran
      obtain ⟨inserted, isInserted, ran⟩ := bind_ok ran
      have filed : fileNew state inode index (overlay (fun _ => 0) offset chunk) =
          if inserted.ok then .ok (some inserted.state) else .ok none := by
        rw [fileNew, alloc]
        dsimp only
        rw [if_neg (by omega), write]
        dsimp only
        rw [isInserted]
        rfl
      cases ok : inserted.ok with
      | false =>
        rw [ok] at ran filed
        cases ran
        obtain ⟨result, provided, same⟩ := fileNew_congr rfl _ (fun _ => 0) filed
        cases result with
        | none => exact .inr ⟨rfl, provided⟩
        | some next => cases same
      | true =>
        rw [ok] at ran filed
        cases ran
        obtain ⟨result, provided, same⟩ := fileNew_congr rfl _ (fun _ => 0) filed
        cases result with
        | none => cases same
        | some next => exact .inl ⟨rfl, next, provided, Option.some.inj same⟩

theorem extentKey_ne (inode : Nat) {index' : Nat} (below : index < maxFileBlocks)
    (below' : index' < maxFileBlocks) (different : index ≠ index') :
    extentKey inode index ≠ extentKey inode index' := by
  intro same
  unfold maxFileBlocks at below below'
  unfold extentKey at same
  rw [makeKey_pair (by decide), makeKey_pair (by decide)] at same
  omega

theorem fileNew_uses (rep : Represents state height bindings) {bytes : Nat → UInt8}
    {next : BtreeState} (ran : fileNew state inode index bytes = .ok (some next)) :
    ∃ height' value,
      Represents next height' (update bindings (extentKey inode index) (some value)) ∧
      state.device.nextFreeBlock + 2 ≤ next.device.nextFreeBlock := by
  have positive := rep.positive
  unfold fileNew at ran
  cases devAllocBlock_stocked rep.limit (.data bytes) with
  | full used alloc =>
    rw [alloc] at ran
    cases ran
  | stored taken stored room alloc write frame nextFree image =>
    rw [alloc] at ran
    dsimp only at ran
    rw [if_neg (by omega), write] at ran
    dsimp only at ran
    have storedRep := rep.frame frame.keepsNodes (by omega)
    obtain ⟨out, inserted, outcome⟩ := btreeInsert_spec storedRep (extentKey inode index)
      (extentPack state.device.nextFreeBlock blocksPerExtent)
    rw [inserted, ok_bind] at ran
    cases outcome with
    | failed => cases ran
    | inserted after _ taken afterRep =>
      cases ran
      have cost : 0 < insertCost ⟨stored, state.rootLba⟩ height (extentKey inode index) := by
        unfold insertCost
        split
        next => exact Nat.one_pos
        next => exact Nat.add_pos_left (insertWrites_pos _ _ _ _) _
      refine ⟨_, _, afterRep, ?_⟩
      dsimp only at taken ⊢
      omega

theorem HasRoom.uses (rep : Represents state height bindings)
    (below : index + count ≤ maxFileBlocks)
    (missing : ∀ i, index ≤ i → i < index + count → bindings (extentKey inode i) = none)
    (room : HasRoom inode count state index) :
    state.device.nextFreeBlock + 2 * count ≤ ramdiskBlocks := by
  induction count generalizing state height bindings index with
  | zero => exact rep.limit
  | succ count ih =>
    obtain ⟨next, provided, rest⟩ := room
    rw [provide, rep.lookup, ok_bind, missing index (Nat.le_refl _) (by omega)] at provided
    obtain ⟨height', value, nextRep, uses⟩ := fileNew_uses rep provided
    have := ih nextRep (by omega) (fun i low high => ?_) rest
    · omega
    · rw [update_of_ne (extentKey_ne inode (by omega) (by omega) (by omega)),
        missing i (by omega) (by omega)]

/-- The number of blocks that hold one of `len` bytes from `offset` on. -/
def chunkCount (offset len : Nat) : Nat :=
  if len = 0 then 0 else (offset + len + dataBlockSize - 1) / dataBlockSize

theorem chunkCount_succ {len : Nat} (inside : offset < dataBlockSize) (some : len ≠ 0) :
    chunkCount offset len = chunkCount 0 (len - min (dataBlockSize - offset) len) + 1 := by
  unfold chunkCount
  rw [if_neg some]
  split
  next last =>
    unfold dataBlockSize at *
    omega
  next more =>
    unfold dataBlockSize at *
    omega

theorem lt_chunkCount {blocks len : Nat} :
    blocks < chunkCount offset len ↔ blocks * dataBlockSize - offset < len := by
  unfold chunkCount
  split
  next none => simp [none]
  next some =>
    unfold dataBlockSize
    omega

/-- `count` chunks are stored, and the loop ends with the last or without room. -/
structure LoopStored (state : BtreeState) (bindings : Nat → Option Nat) (inode index offset : Nat)
    (buf : List UInt8) (written count height' : Nat) (bindings' : Nat → Option Nat)
    (out : WriteOut) : Prop where
  inv : YafsInv out.state height' bindings'
  room : HasRoom inode count state index
  ended : (out.ok = true ∧ count = chunkCount offset buf.length) ∨
    (out.ok = false ∧ count < chunkCount offset buf.length ∧ ¬HasRoom inode (count + 1) state index)
  written : out.written = written + min buf.length (count * dataBlockSize - offset)
  kept : KeepsFiles state.device out.state.device bindings bindings' fun key =>
    ∃ i, index ≤ i ∧ i < index + count ∧ key = extentKey inode i
  stays : ∀ key, keyTag key = ksExtent → fileBlock state.device bindings key ≠ none →
    fileBlock out.state.device bindings' key ≠ none
  filled : ∀ i, index ≤ i → i < index + count →
    fileBlock out.state.device bindings' (extentKey inode i) ≠ none

theorem writeLoop_stored (inv : YafsInv state height bindings) (inode : Nat) {fuel : Nat}
    (index : Nat)
    (buf : List UInt8) (written : Nat) (enough : buf.length < fuel)
    (inside : offset < dataBlockSize) :
    ∃ out count height' bindings', writeLoop inode fuel state index offset buf written = .ok out ∧
      LoopStored state bindings inode index offset buf written count height' bindings' out := by
  induction fuel generalizing state height bindings index offset buf written with
  | zero => omega
  | succ fuel ih =>
    unfold writeLoop
    by_cases empty : buf.length = 0
    · rw [if_pos empty]
      refine ⟨_, 0, height, bindings, rfl, inv, trivial, .inl ⟨rfl, ?_⟩, ?_, .refl _ _ _,
        fun _ _ => id,
        fun i low high => by omega⟩
      · rw [chunkCount, if_pos empty]
      · rw [empty, Nat.zero_min]
        rfl
    · rw [if_neg empty]
      obtain ⟨⟨middle, stored⟩, ran, outcome⟩ := writeChunk_spec inv inode index offset
        (buf.take (min (dataBlockSize - offset) buf.length))
      have provides := writeChunk_provide inv ran
      have more := chunkCount_succ inside empty
      dsimp only
      rw [ran, ok_bind]
      cases outcome with
      | full frame used =>
        obtain ⟨isStored, _⟩ | ⟨_, noRoom⟩ := provides
        · cases isStored
        · refine ⟨_, 0, height, bindings, rfl, inv.frame frame.keepsKinds (Nat.le_of_eq used),
            trivial,
            .inr ⟨rfl, by omega, ?_⟩, ?_, inv.keepsFiles frame _, fun key tag present => ?_,
            fun i low high => by omega⟩
          · rintro ⟨next, provided, _⟩
            cases noRoom.symm.trans provided
          · dsimp only
            omega
          · rwa [(inv.keepsFiles frame fun _ => False).blocks key tag id]
      | @stored _ _ middleMap middleInv middleRooted kept block =>
        obtain ⟨_, next, provided, same⟩ | ⟨notStored, _⟩ := provides
        · dsimp only
          rw [if_neg Bool.noConfusion]
          obtain ⟨out, count, height', bindings', restRan, rest⟩ := ih middleInv (index + 1)
            (buf.drop (min (dataBlockSize - offset) buf.length))
            (written + min (dataBlockSize - offset) buf.length)
            (by rw [List.length_drop]; omega) (show 0 < dataBlockSize by decide)
          have ended := rest.ended
          have amount := rest.written
          rw [List.length_drop] at ended amount
          have filledHere : ∀ key, keyTag key = ksExtent →
              (key = extentKey inode index ∨ fileBlock state.device bindings key ≠ none) →
              fileBlock middle.device middleMap key ≠ none := by
            intro key tag present
            by_cases here : key = extentKey inode index
            · obtain ⟨bytes, isBlock, _⟩ := block
              rw [here, isBlock]
              exact Option.some_ne_none bytes
            · rw [kept.blocks key tag here]
              exact present.resolve_left here
          have older : KeepsFiles state.device middle.device bindings middleMap fun key =>
              ∃ i, index ≤ i ∧ i < index + (count + 1) ∧ key = extentKey inode i :=
            kept.mono fun key isKey => ⟨index, Nat.le_refl _, by omega, isKey⟩
          have newer : KeepsFiles middle.device out.state.device middleMap bindings' fun key =>
              ∃ i, index ≤ i ∧ i < index + (count + 1) ∧ key = extentKey inode i := by
            refine rest.kept.mono ?_
            rintro key ⟨i, low, high, isKey⟩
            exact ⟨i, by omega, by omega, isKey⟩
          refine ⟨out, count + 1, height', bindings', restRan, rest.inv,
            ⟨next, provided, rest.room.congr same.symm⟩,
            ?_, ?_, older.trans newer, fun key tag present =>
              rest.stays key tag (filledHere key tag (.inr present)),
            fun i low high => ?_⟩
          · rcases ended with ⟨ok, all⟩ | ⟨failed, less, noRoom⟩
            · exact .inl ⟨ok, by omega⟩
            · refine .inr ⟨failed, by omega, ?_⟩
              rintro ⟨next', provided', rest'⟩
              cases provided.symm.trans provided'
              exact noRoom (rest'.congr same)
          · rw [amount]
            unfold dataBlockSize at *
            omega
          · rcases Nat.eq_or_lt_of_le low with rfl | later
            · have tag := keyTag_extentKey inode index
              exact rest.stays _ tag (filledHere _ tag (.inl rfl))
            · exact rest.filled i later (by omega)
        · cases notStored

theorem LoopStored.count_eq {written height' : Nat} {buf : List UInt8}
    {bindings' : Nat → Option Nat} {out : WriteOut}
    (loop : LoopStored state bindings inode index offset buf written count height' bindings' out)
    (ok : out.ok = true) : count = chunkCount offset buf.length := by
  obtain ⟨_, all⟩ | ⟨failed, _⟩ := loop.ended
  · exact all
  · cases failed.symm.trans ok

theorem LoopStored.newSize {height' : Nat} {buf : List UInt8}
    {bindings' : Nat → Option Nat} {out : WriteOut}
    (loop : LoopStored state bindings inode (offset / dataBlockSize)
      (offset % dataBlockSize) buf 0 count height' bindings' out)
    (ok : out.ok = true) (small : offset + buf.length < 2 ^ 64) :
    (offset + out.written) % 2 ^ 64 = offset + buf.length := by
  have whole : buf.length ≤ chunkCount (offset % dataBlockSize) buf.length * dataBlockSize -
      offset % dataBlockSize := by
    by_contra more
    exact absurd (lt_chunkCount.mpr (Nat.lt_of_not_le more)) (Nat.lt_irrefl _)
  rw [loop.written, loop.count_eq ok, Nat.zero_add, Nat.min_eq_left whole, Nat.mod_eq_of_lt small]

theorem devWrite_image {after : Device} {lba : Nat} {block : Block}
    (written : devWrite device lba block = (after, true)) : after.blocks lba = block := by
  unfold devWrite at written
  split at written
  next => cases written
  next =>
    cases written
    exact update_self lba block device.blocks

/-- What `growInode` makes of a record. -/
def grown (record : InodeValue) (newSize : Nat) : InodeValue :=
  let blocksNeeded := (newSize + dataBlockSize - 1) % 2 ^ 64 / dataBlockSize
  { record with
    size := if newSize > record.size then newSize else record.size
    blocks := if blocksNeeded > record.blocks then blocksNeeded else record.blocks }

/-- The record of the file after a write; the other records and the tree stay. -/
structure Grown (state after : BtreeState) (bindings : Nat → Option Nat) (inode newSize : Nat) :
    Prop where
  edits : ∃ height, EditsRecord state after height bindings inode
  record : ∀ lba record, bindings (inodeKey inode) = some lba →
      state.device.blocks lba = .inode record →
    after.device.blocks lba = .inode (grown record newSize)

theorem growInode_grown (inv : YafsInv state height bindings) (inode newSize : Nat) :
    ∃ after, growInode state inode newSize = .ok after ∧
      Grown state after bindings inode newSize := by
  unfold growInode
  rw [inv.rep.lookup, ok_bind]
  cases bound : bindings (inodeKey inode) with
  | none =>
    refine ⟨_, rfl, ⟨height, .refl inv inode⟩, fun lba record isBound => ?_⟩
    cases bound.symm.trans isBound
  | some lba =>
    obtain ⟨record, image, read⟩ := inv.inodeRead_eq (keyTag_inodeKey inode) bound
    obtain ⟨after, written, edits⟩ := inv.editRecord bound (grown record newSize)
    dsimp only
    rw [read, ok_bind]
    dsimp only
    unfold grown at written
    dsimp only at written
    rw [written]
    refine ⟨_, rfl, ⟨height, edits⟩, fun lba' record' isBound image' => ?_⟩
    cases bound.symm.trans isBound
    cases image.symm.trans image'
    exact devWrite_image written

/-- A write does nothing, gives up, or stores all chunks and the record. -/
inductive WriteRun (state : BtreeState) (bindings : Nat → Option Nat) (inode offset : Nat)
    (buf : List UInt8) :
    WriteOut → Prop where
  | nothing (refused : buf.length = 0 ∨ offset / dataBlockSize ≥ maxFileBlocks) :
      WriteRun state bindings inode offset buf ⟨state, true, 0⟩
  | failed {out : WriteOut} {count height' : Nat} {bindings' : Nat → Option Nat}
      (some : buf.length ≠ 0)
      (below : offset / dataBlockSize < maxFileBlocks)
      (loop : LoopStored state bindings inode (offset / dataBlockSize)
        (offset % dataBlockSize) buf 0 count height' bindings' out) (isFailed : out.ok = false) :
      WriteRun state bindings inode offset buf out
  | stored {out : WriteOut} {after : BtreeState} {count height' : Nat}
      {bindings' : Nat → Option Nat}
      (some : buf.length ≠ 0) (below : offset / dataBlockSize < maxFileBlocks)
      (loop : LoopStored state bindings inode (offset / dataBlockSize)
        (offset % dataBlockSize) buf 0 count height' bindings' out) (ok : out.ok = true)
      (updated : Grown out.state after bindings' inode ((offset + out.written) % 2 ^ 64)) :
      WriteRun state bindings inode offset buf ⟨after, true, out.written⟩

/-- A write runs without a fault, as far as there is room. -/
theorem writeFileData_run (inv : YafsInv state height bindings) (inode : Nat) (buf : List UInt8)
    (offset : Nat) :
    ∃ out, writeFileData state inode buf offset = .ok out ∧
      WriteRun state bindings inode offset buf out := by
  unfold writeFileData
  by_cases empty : buf.length = 0
  · rw [if_pos empty]
    exact ⟨_, rfl, .nothing (.inl empty)⟩
  rw [if_neg empty]
  by_cases past : offset / dataBlockSize ≥ maxFileBlocks
  · rw [if_pos past]
    exact ⟨_, rfl, .nothing (.inr past)⟩
  rw [if_neg past]
  have inside : offset % dataBlockSize < dataBlockSize := Nat.mod_lt _ (by decide)
  obtain ⟨out, count, height', bindings', ran, loop⟩ := writeLoop_stored inv inode
    (offset / dataBlockSize) buf 0 (Nat.lt_add_one buf.length) inside
  rw [ran, ok_bind]
  by_cases isFailed : out.ok = false
  · rw [if_pos isFailed]
    exact ⟨out, rfl, .failed empty (Nat.lt_of_not_le past) loop isFailed⟩
  · obtain ⟨after, grew, updated⟩ :=
      growInode_grown loop.inv inode ((offset + out.written) % 2 ^ 64)
    rw [if_neg isFailed, grew]
    exact ⟨_, rfl,
      .stored empty (Nat.lt_of_not_le past) loop (Bool.eq_true_of_not_eq_false isFailed) updated⟩

end M4KK1.Yafs

import M4KK1.Pcc.Expressions

/-!
# What emitting does to the state

`Emitted`: the text has grown; `Pending`: the references to a label still to come.
-/

namespace M4KK1.Pcc

open Function List

variable {α β : Type} {s s' s'' : Compiler} {X Y : Set Nat}
  {code front back : List UInt8}

theorem run_bind {x : Action α} {f : α → Action β} {a : α} (ran : x s = .ok (a, s')) :
    (x >>= f) s = f a s' := by
  change Except.bind (x s) _ = _
  rw [ran]
  rfl

/-- One byte more of text, if there is room. -/
def Compiler.push (s : Compiler) (byte : UInt8) : Compiler :=
  { s with
    need := { s.need with text := max s.need.text (s.textN + 1) }
    dropped := s.dropped || decide (¬s.textN < s.limits.text)
    text := if s.textN < s.limits.text then update s.text s.textN byte else s.text
    textN := if s.textN < s.limits.text then s.textN + 1 else s.textN }

/-- More bytes of text, as far as there is room. -/
def Compiler.append (s : Compiler) (bytes : List UInt8) : Compiler := bytes.foldl Compiler.push s

def Compiler.next (s : Compiler) : Compiler := { s with pos := s.pos + 1 }

variable (bytes : List UInt8)

theorem emits_run (s : Compiler) : emits bytes s = .ok ((), s.append bytes) := by
  induction bytes generalizing s with
  | nil => rfl
  | cons byte rest ih =>
    have first : emit1 byte s = .ok ((), s.push byte) := rfl
    exact (run_bind first).trans (ih _)

theorem emit32_run (word : BitVec 32) (s : Compiler) :
    emit32 word s = .ok ((), s.append (le32 word)) := emits_run _ _

@[simp] theorem bind_cur {f : Token → Action β} : (cur >>= f) s = f (s.toks s.pos) s := rfl

@[simp] theorem bind_atKind {kind : Kind} {f : Bool → Action β} :
    (atKind kind >>= f) s = f (decide ((s.toks s.pos).kind = kind)) s := rfl

variable {f : Unit → Action β}

@[simp] theorem bind_advance : (advance >>= f) s = f () s.next := rfl

@[simp] theorem bind_pure {a : α} {f : α → Action β} : ((pure a : Action α) >>= f) s = f a s := rfl

@[simp] theorem run_pure {a : α} : (pure a : Action α) s = .ok (a, s) := rfl

@[simp] theorem bind_emit1 {byte : UInt8} : (emit1 byte >>= f) s = f () (s.append [byte]) := rfl

@[simp] theorem bind_emits {bytes : List UInt8} :
    (emits bytes >>= f) s = f () (s.append bytes) := run_bind (emits_run bytes s)

@[simp] theorem bind_emit32 {word : BitVec 32} :
    (emit32 word >>= f) s = f () (s.append (le32 word)) := run_bind (emit32_run word s)

@[simp] theorem bind_symAt {i : Nat} {f : Sym → Action β} : (symAt i >>= f) s = f (s.syms i) s :=
  rfl

theorem append_append (s : Compiler) (front back : List UInt8) :
    (s.append front).append back = s.append (front ++ back) := (foldl_append ..).symm

/-- The text has grown by `code`; other labels and references are as they were. -/
structure Emitted (X : Set Nat) (s : Compiler) (code : List UInt8) (s' : Compiler) : Prop where
  length : s'.textN = s.textN + code.length
  below : ∀ i < s.textN, s'.text i = s.text i
  written : ∀ i (inside : i < code.length), s'.text (s.textN + i) = code[i]
  context : s'.limits = s.limits ∧ s'.junk = s.junk ∧ s'.toks = s.toks ∧ s'.tokN = s.tokN
  labels : s.labelN ≤ s'.labelN
  oldPos : ∀ id < s.labelN, s'.labelPos id = s.labelPos id
  oldList : ∀ id < s.labelN, id ∉ X → s'.labelList id = s.labelList id
  lfix : s.lfixN ≤ s'.lfixN
  oldLfix : ∀ fx < s.lfixN, s'.lfix fx = s.lfix fx
  depth : s'.loopDepth = s.loopDepth
  loops : ∀ k < s.loopDepth, s'.loopBrk k = s.loopBrk k ∧ s'.loopCont k = s.loopCont k

namespace Emitted

theorem refl (X : Set Nat) (s : Compiler) : Emitted X s [] s :=
  ⟨rfl, fun _ _ => rfl, fun _ inside => absurd inside (Nat.not_lt_zero _), ⟨rfl, rfl, rfl, rfl⟩,
    le_refl _, fun _ _ => rfl, fun _ _ _ => rfl, le_refl _, fun _ _ => rfl, rfl,
    fun _ _ => ⟨rfl, rfl⟩⟩

theorem trans (first : Emitted X s front s') (second : Emitted X s' back s'') :
    Emitted X s (front ++ back) s'' := by
  have lengths := first.length
  have labels := first.labels
  have fixes := first.lfix
  refine ⟨?_, ?_, ?_, ?_, ?_, ?_, ?_, ?_, ?_, ?_, ?_⟩
  · rw [second.length, first.length, length_append]
    omega
  · intro i inside
    rw [second.below i (by omega), first.below i inside]
  · intro i inside
    by_cases early : i < front.length
    · rw [second.below _ (by omega), first.written i early, getElem_append_left early]
    · have later := second.written (i - front.length) (by rw [length_append] at inside; omega)
      rw [getElem_append_right (by omega), ← later, lengths]
      congr 1
      omega
  · obtain ⟨limits, junk, toks, tokN⟩ := first.context
    obtain ⟨limits', junk', toks', tokN'⟩ := second.context
    exact ⟨limits'.trans limits, junk'.trans junk, toks'.trans toks, tokN'.trans tokN⟩
  · exact le_trans labels second.labels
  · intro id old
    rw [second.oldPos id (by omega), first.oldPos id old]
  · intro id old other
    rw [second.oldList id (by omega) other, first.oldList id old other]
  · exact le_trans fixes second.lfix
  · intro fx old
    rw [second.oldLfix fx (by omega), first.oldLfix fx old]
  · rw [second.depth, first.depth]
  · intro k inside
    obtain ⟨brks, conts⟩ := second.loops k (by rw [first.depth]; exact inside)
    obtain ⟨brks', conts'⟩ := first.loops k inside
    exact ⟨brks.trans brks', conts.trans conts'⟩

theorem next (emitted : Emitted X s code s') : Emitted X s code s'.next :=
  { emitted with }

theorem drop (emitted : Emitted X s code s') (made : ∀ id ∈ X, id ∉ Y → s.labelN ≤ id) :
    Emitted Y s code s' := by
  refine ⟨emitted.length, emitted.below, emitted.written, emitted.context, emitted.labels,
    emitted.oldPos, ?_, emitted.lfix, emitted.oldLfix, emitted.depth, emitted.loops⟩
  intro id old outside
  refine emitted.oldList id old fun inside => ?_
  have := made id inside outside
  omega

theorem weaken (emitted : Emitted X s code s') (part : X ⊆ Y) : Emitted Y s code s' :=
  emitted.drop fun _ inside outside => absurd (part inside) outside

end Emitted

/-- What is not text, labels or the place in the tokens is as it was. -/
structure Kept (s s' : Compiler) : Prop where
  syms : s'.syms = s.syms
  symN : s'.symN = s.symN
  fixups : ∀ i < s.fixupN, s'.fixups i = s.fixups i
  fixupN : s'.fixupN = s.fixupN
  rodata : s'.rodata = s.rodata ∧ s'.rodataN = s.rodataN
  data : s'.data = s.data ∧ s'.dataN = s.dataN
  errLine : s'.errLine = s.errLine
  locals : s'.fnLocalOff = s.fnLocalOff

namespace Kept

theorem refl (s : Compiler) : Kept s s :=
  ⟨rfl, rfl, fun _ _ => rfl, rfl, ⟨rfl, rfl⟩, ⟨rfl, rfl⟩, rfl, rfl⟩

theorem trans (first : Kept s s') (second : Kept s' s'') : Kept s s'' := by
  refine ⟨second.syms.trans first.syms, second.symN.trans first.symN, ?_,
    second.fixupN.trans first.fixupN, ?_, ?_, second.errLine.trans first.errLine,
    second.locals.trans first.locals⟩
  · intro i inside
    rw [second.fixups i (by rw [first.fixupN]; exact inside), first.fixups i inside]
  · exact ⟨second.rodata.1.trans first.rodata.1, second.rodata.2.trans first.rodata.2⟩
  · exact ⟨second.data.1.trans first.data.1, second.data.2.trans first.data.2⟩

end Kept

theorem push_emitted (room : s.textN < s.limits.text) (byte : UInt8) :
    Emitted X s [byte] (s.push byte) := by
  refine ⟨?_, ?_, ?_, ⟨rfl, rfl, rfl, rfl⟩, le_refl _, fun _ _ => rfl, fun _ _ _ => rfl, le_refl _,
    fun _ _ => rfl, rfl, fun _ _ => ⟨rfl, rfl⟩⟩
  · simp [Compiler.push, room]
  · intro i inside
    simp [Compiler.push, room, update_of_ne (Nat.ne_of_lt inside)]
  · intro i inside
    have first : i = 0 := by simpa using inside
    subst first
    simp [Compiler.push, room]

theorem append_kept (s : Compiler) : Kept s (s.append bytes) := by
  induction bytes generalizing s with
  | nil => exact Kept.refl s
  | cons byte rest ih =>
    have first : Kept s (s.push byte) :=
      ⟨rfl, rfl, fun _ _ => rfl, rfl, ⟨rfl, rfl⟩, ⟨rfl, rfl⟩, rfl, rfl⟩
    exact first.trans (ih (s.push byte))

@[simp] theorem append_pos (s : Compiler) : (s.append bytes).pos = s.pos := by
  induction bytes generalizing s with
  | nil => rfl
  | cons byte rest ih => exact ih (s.push byte)

theorem append_emitted {bytes : List UInt8} (room : s.textN + bytes.length ≤ s.limits.text) :
    Emitted X s bytes (s.append bytes) := by
  induction bytes generalizing s with
  | nil => exact Emitted.refl X s
  | cons byte rest ih =>
    rw [length_cons] at room
    have first : Emitted X s [byte] (s.push byte) := push_emitted (by omega) byte
    have later : Emitted X (s.push byte) rest ((s.push byte).append rest) := by
      refine ih ?_
      rw [first.length, first.context.1, length_singleton]
      omega
    exact first.trans later

theorem Emitted.append {bytes : List UInt8} (emitted : Emitted X s code s')
    (room : s.textN + (code ++ bytes).length ≤ s.limits.text) :
    Emitted X s (code ++ bytes) (s'.append bytes) := by
  refine emitted.trans (append_emitted ?_)
  rw [emitted.length, emitted.context.1]
  rw [length_append] at room
  omega

/-- The places that a chain of `lfix` entries below `bound` refers from, the last one first. -/
def Chain (lfix : Nat → LabelFix) : List Nat → Nat → Option Nat → Prop
  | [], _, head => head = none
  | place :: places, bound, head =>
    ∃ fx, head = some fx ∧ fx < bound ∧ (lfix fx).pos = place ∧
      Chain lfix places fx (lfix fx).next

/-- The label is still to come, and the text refers to it at `places`. -/
structure Pending (s : Compiler) (id : Nat) (places : List Nat) : Prop where
  known : id < s.labelN
  unplaced : s.labelPos id = none
  chain : Chain s.lfix places s.lfixN (s.labelList id)

variable {lfix lfix' : Nat → LabelFix} {places : List Nat} {bound bound' id : Nat}
  {head : Option Nat}

theorem Chain.congr (chain : Chain lfix places bound head) (le : bound ≤ bound')
    (same : ∀ fx < bound, lfix' fx = lfix fx) : Chain lfix' places bound' head := by
  induction places generalizing bound bound' head with
  | nil => exact chain
  | cons place places ih =>
    obtain ⟨fx, isHead, inside, isPlace, rest⟩ := chain
    refine ⟨fx, isHead, by omega, by rw [same fx inside]; exact isPlace, ?_⟩
    rw [same fx inside]
    exact ih rest (le_refl fx) fun other below => same other (by omega)

theorem Pending.emitted (pending : Pending s id places) (emitted : Emitted X s code s')
    (other : id ∉ X) : Pending s' id places := by
  refine ⟨by have := emitted.labels; have := pending.known; omega, ?_, ?_⟩
  · rw [emitted.oldPos id pending.known]
    exact pending.unplaced
  · rw [emitted.oldList id pending.known other]
    exact pending.chain.congr emitted.lfix emitted.oldLfix

/-- The distance from behind a reference to the end of the text. -/
def distance (target place : Nat) : BitVec 32 := BitVec.ofInt 32 ((target : Int) - (place + 4))

/-- The text with the references at these places to its end. -/
def patchPlaces (textN : Nat) (places : List Nat) (text : Nat → UInt8) : Nat → UInt8 :=
  places.foldl (fun text place => patch text textN place (distance textN place)) text

theorem patchAll_chain {fuel textN : Nat} {text : Nat → UInt8}
    (chain : Chain lfix places bound head) (enough : bound ≤ fuel) :
    patchAll lfix textN fuel head text = patchPlaces textN places text := by
  induction places generalizing bound head fuel text with
  | nil =>
    rw [chain]
    cases fuel <;> rfl
  | cons place places ih =>
    obtain ⟨fx, rfl, inside, isPlace, rest⟩ := chain
    obtain ⟨fuel, rfl⟩ : ∃ n, fuel = n + 1 := ⟨fuel - 1, by omega⟩
    rw [patchAll, isPlace]
    exact ih rest (by omega)

def Compiler.place (s : Compiler) (id : Nat) : Compiler :=
  { s with
    text := patchAll s.lfix s.textN s.lfixN (s.labelList id) s.text
    labelPos := update s.labelPos id (some s.textN)
    labelList := update s.labelList id none }

@[simp] theorem bind_emitLabel : (emitLabel id >>= f) s = f () (s.place id) :=
  rfl

/-- The state with one reference more to a label that is still to come. -/
def Compiler.refer (s : Compiler) (id : Nat) : Compiler :=
  { s with
    need := { s.need with lfix := max s.need.lfix (s.lfixN + 1) }
    refs := s.refs ++ [(s.textN, id)]
    lfix := update s.lfix s.lfixN ⟨s.textN, s.labelList id⟩
    labelList := update s.labelList id (some s.lfixN)
    lfixN := s.lfixN + 1 }

theorem emitRel32Label_pending (pending : Pending s id places) (room : s.lfixN < s.limits.lfix) :
    emitRel32Label id s = .ok ((), (s.refer id).append (le32 0)) := by
  rw [emitRel32Label, if_pos pending.known, pending.unplaced]
  dsimp only
  rw [if_pos room]
  exact emit32_run _ _

theorem refer_emitted (s : Compiler) (id : Nat) : Emitted {id} s [] (s.refer id) := by
  refine ⟨rfl, fun _ _ => rfl, fun _ inside => absurd inside (Nat.not_lt_zero _),
    ⟨rfl, rfl, rfl, rfl⟩, le_refl _, fun _ _ => rfl, ?_, Nat.le_succ _, ?_, rfl,
    fun _ _ => ⟨rfl, rfl⟩⟩
  · intro other _ outside
    exact update_of_ne outside _ _
  · intro fx old
    exact update_of_ne (Nat.ne_of_lt old) _ _

theorem refer_pending (pending : Pending s id places) :
    Pending (s.refer id) id (s.textN :: places) := by
  refine ⟨pending.known, pending.unplaced, s.lfixN, update_self .., Nat.lt_succ_self _, ?_, ?_⟩
  · simp [Compiler.refer]
  · have same : ∀ fx < s.lfixN, (s.refer id).lfix fx = s.lfix fx :=
      fun fx old => update_of_ne (Nat.ne_of_lt old) _ _
    have isNext : ((s.refer id).lfix s.lfixN).next = s.labelList id := by simp [Compiler.refer]
    rw [isNext]
    exact pending.chain.congr (le_refl _) same

def setWord (code : List UInt8) (offset : Nat) (word : BitVec 32) : List UInt8 :=
  code.take offset ++ le32 word ++ code.drop (offset + 4)

@[simp] theorem le32_length (word : BitVec 32) : (le32 word).length = 4 := rfl

theorem setWord_length {offset : Nat} {word : BitVec 32} (inside : offset + 4 ≤ code.length) :
    (setWord code offset word).length = code.length := by
  simp [setWord]
  omega

theorem setWord_getElem {offset i : Nat} {word : BitVec 32} (inside : offset + 4 ≤ code.length)
    (below : i < code.length) :
    (setWord code offset word)[i]? =
      some (if offset ≤ i ∧ i < offset + 4 then (le32 word).getD (i - offset) 0 else code[i]) := by
  have taken : (code.take offset).length = offset := by simp; omega
  rw [setWord, append_assoc]
  by_cases before : i < offset
  · rw [getElem?_append_left (by omega), if_neg (by omega), getElem?_take_of_lt before,
      getElem?_eq_getElem below]
  rw [getElem?_append_right (by omega), taken]
  by_cases within : i < offset + 4
  · rw [getElem?_append_left (by simp; omega), if_pos (by omega),
      getD_eq_getElem?_getD, getElem?_eq_getElem (by simp; omega), Option.getD_some]
  · rw [getElem?_append_right (by simp; omega), if_neg (by omega), getElem?_drop, le32_length,
      show offset + 4 + (i - offset - 4) = i by omega, getElem?_eq_getElem below]

theorem setWord_append {hole : List UInt8} (isWord : hole.length = 4) (word : BitVec 32) :
    setWord (front ++ hole ++ back) front.length word = front ++ le32 word ++ back := by
  rw [setWord]
  have taken : (front ++ hole ++ back).take front.length = front := by simp
  have dropped : (front ++ hole ++ back).drop (front.length + 4) = back := by
    rw [← isWord, ← length_append, drop_left]
  rw [taken, dropped]

theorem Emitted.patch {offset : Nat} {word : BitVec 32} (emitted : Emitted X s code s')
    (inside : offset + 4 ≤ code.length) :
    Emitted X s (setWord code offset word)
      { s' with text := patch s'.text s'.textN (s.textN + offset) word } := by
  refine ⟨?_, ?_, ?_, emitted.context, emitted.labels, emitted.oldPos, emitted.oldList,
    emitted.lfix,
    emitted.oldLfix, emitted.depth, emitted.loops⟩
  · rw [setWord_length inside]
    exact emitted.length
  · intro i old
    have outside : ¬(s.textN + offset ≤ i ∧ i < s.textN + offset + 4 ∧ i < s'.textN) := by omega
    exact (if_neg outside).trans (emitted.below i old)
  · intro i below
    rw [setWord_length inside] at below
    have length := emitted.length
    have isByte := @setWord_getElem code offset i word inside below
    apply Option.some.inj
    rw [← getElem?_eq_getElem, isByte]
    congr 1
    by_cases within : offset ≤ i ∧ i < offset + 4
    · rw [if_pos within]
      refine (if_pos (by omega)).trans ?_
      congr 1
      omega
    · rw [if_neg within]
      exact (if_neg (by omega)).trans (emitted.written i below)

theorem Emitted.patchPlaces {offsets : List Nat} (emitted : Emitted X s code s')
    (inside : ∀ offset ∈ offsets, offset + 4 ≤ code.length) :
    Emitted X s
      (offsets.foldl
        (fun code offset => setWord code offset (distance s'.textN (s.textN + offset))) code)
      { s' with text := Pcc.patchPlaces s'.textN (offsets.map (s.textN + ·)) s'.text } := by
  induction offsets generalizing code s' with
  | nil => exact emitted
  | cons offset offsets ih =>
    obtain ⟨first, rest⟩ := forall_mem_cons.mp inside
    have patched := @Emitted.patch s s' X code offset (distance s'.textN (s.textN + offset)) emitted
      first
    refine ih patched ?_
    intro other member
    rw [setWord_length first]
    exact rest other member

theorem place_emitted {offsets : List Nat} (emitted : Emitted X s code s')
    (pending : Pending s' id (offsets.map (s.textN + ·)))
    (inside : ∀ offset ∈ offsets, offset + 4 ≤ code.length) (isOpen : id ∈ X)
    (made : s.labelN ≤ id) :
    Emitted X s
      (offsets.foldl
        (fun code offset => setWord code offset (distance s'.textN (s.textN + offset))) code)
      (s'.place id) := by
  have patched := emitted.patchPlaces inside
  rw [← patchAll_chain pending.chain (le_refl _)] at patched
  refine ⟨patched.length, patched.below, patched.written, patched.context, patched.labels, ?_, ?_,
    patched.lfix, patched.oldLfix, patched.depth, patched.loops⟩
  · intro other old
    exact (update_of_ne (by omega) _ _).trans (emitted.oldPos other old)
  · intro other old outside
    have apart : other ≠ id := fun same => outside (same ▸ isOpen)
    exact (update_of_ne apart _ _).trans (emitted.oldList other old outside)

def Compiler.label (s : Compiler) : Compiler :=
  { s with
    need := { s.need with labels := max s.need.labels (s.labelN + 1) }
    labelList := update s.labelList s.labelN none
    labelPos := update s.labelPos s.labelN none
    labelN := s.labelN + 1 }

theorem newLabel_run (room : s.labelN < s.limits.labels) :
    newLabel s = .ok (s.labelN, s.label) := by
  rw [newLabel]
  exact if_pos room

theorem label_emitted (X : Set Nat) (s : Compiler) : Emitted X s [] s.label := by
  refine ⟨rfl, fun _ _ => rfl, fun _ inside => absurd inside (Nat.not_lt_zero _),
    ⟨rfl, rfl, rfl, rfl⟩, Nat.le_succ _, ?_, ?_, le_refl _, fun _ _ => rfl, rfl,
    fun _ _ => ⟨rfl, rfl⟩⟩
  · intro id old
    exact update_of_ne (Nat.ne_of_lt old) _ _
  · intro id old _
    exact update_of_ne (Nat.ne_of_lt old) _ _

theorem label_pending (s : Compiler) : Pending s.label s.labelN [] :=
  ⟨Nat.lt_succ_self _, update_self .., update_self ..⟩

theorem append_pending {bytes : List UInt8} (pending : Pending s id places) :
    Pending (s.append bytes) id places := by
  induction bytes generalizing s with
  | nil => exact pending
  | cons byte rest ih => exact @ih (s.push byte) { pending with }

theorem append_eq (s : Compiler) : ∃ need dropped text textN, s.append bytes =
        { s with need := need, dropped := dropped, text := text, textN := textN } ∧
      s.textN ≤ textN ∧ ∀ i < s.textN, text i = s.text i := by
  induction bytes generalizing s with
  | nil => exact ⟨_, _, _, _, rfl, le_refl _, fun _ _ => rfl⟩
  | cons byte rest ih =>
    obtain ⟨need, dropped, text, textN, isState, grown, below⟩ := ih (s.push byte)
    have pushed : s.textN ≤ (s.push byte).textN ∧ ∀ i < s.textN,
        (s.push byte).text i = s.text i := by
      by_cases room : s.textN < s.limits.text
      · simp only [Compiler.push, if_pos room]
        exact ⟨Nat.le_succ _, fun i inside => update_of_ne (Nat.ne_of_lt inside) _ _⟩
      · simp only [Compiler.push, if_neg room]
        exact ⟨le_refl _, fun _ _ => trivial⟩
    refine ⟨need, dropped, text, textN, isState, le_trans pushed.1 grown, fun i inside => ?_⟩
    rw [below i (lt_of_lt_of_le inside pushed.1), pushed.2 i inside]

/-- Emitting reads no token. -/
theorem append_toks (s : Compiler) : (s.append bytes).toks = s.toks := by
  obtain ⟨need, dropped, text, textN, isState, -⟩ := append_eq bytes s
  rw [isState]

/-- The state that a tentative parse without a result leaves. -/
def Compiler.rewind (s s' : Compiler) : Compiler :=
  { s' with textN := s.textN, fixupN := s.fixupN, pos := s.pos, refs := s.refs }

end M4KK1.Pcc

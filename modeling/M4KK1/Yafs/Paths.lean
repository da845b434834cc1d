import M4KK1.Yafs.Namespace

/-!
# Path resolution by components

`lookup_path` is a fold over the components, of which those before the last are cut.
-/

namespace M4KK1.Yafs

open Lib List

/-- The parts of a path between its slashes. -/
def components : CString → List CString
  | [] => [[]]
  | byte :: rest =>
    if byte = slash then [] :: components rest
    else
      match components rest with
      | [] => [[byte]]
      | first :: others => (byte :: first) :: others

variable (name : Nat → CString → Except Fault Nat) (parent : Nat → Except Fault Nat)

def pathStep (inode : Nat) (comp : CString) : Except Fault Nat :=
  if comp = [] ∨ comp = cstr "." then .ok inode
  else if comp = cstr ".." then parent inode
  else name inode comp

def foldPath : Nat → List CString → Except Fault Nat
  | inode, [] => .ok inode
  | inode, [last] => pathStep name parent inode last
  | inode, comp :: rest => do
    let inode ← pathStep name parent inode (comp.take 255)
    if inode = 0 then return 0 else foldPath inode rest

variable {name parent}

theorem components_ne_nil (path : CString) : components path ≠ [] := by
  cases path with
  | nil => simp [components]
  | cons byte rest =>
    unfold components
    split
    · simp
    · split <;> simp

theorem components_append {head : CString} (noSlash : slash ∉ head) (tail : CString) :
    components (head ++ slash :: tail) = head :: components tail := by
  induction head with
  | nil => simp [components]
  | cons byte head ih =>
    have other : byte ≠ slash := fun same => noSlash (by simp [same])
    rw [cons_append, components, if_neg other, ih fun member => noSlash (mem_cons_of_mem _ member)]

theorem components_noSlash {path : CString} (noSlash : slash ∉ path) :
    components path = [path] := by
  induction path with
  | nil => rfl
  | cons byte rest ih =>
    have other : byte ≠ slash := fun same => noSlash (by simp [same])
    rw [components, if_neg other, ih fun member => noSlash (mem_cons_of_mem _ member)]

variable {c : UInt8} {text : CString} {inode : Nat} {comps : List CString}

theorem strchrY_some {rest : CString} (found : strchrY c text = some rest) :
    ∃ head tail, c ∉ head ∧ rest = c :: tail ∧ text = head ++ rest := by
  induction text with
  | nil => cases found
  | cons byte text ih =>
    unfold strchrY at found
    split at found
    next isC =>
      obtain rfl := Option.some.inj found
      exact ⟨[], text, by simp, by rw [isC], rfl⟩
    next other =>
      obtain ⟨head, tail, absent, shape, whole⟩ := ih found
      refine ⟨byte :: head, tail, ?_, shape, by rw [whole]; rfl⟩
      simpa [absent] using fun same : c = byte => other same.symm

theorem strchrY_none (missing : strchrY c text = none) : c ∉ text := by
  induction text with
  | nil => simp
  | cons byte text ih =>
    unfold strchrY at missing
    split at missing
    next => cases missing
    next other => simpa [ih missing] using fun same : c = byte => other same.symm

theorem foldPath_cons (inode : Nat) (comp : CString) {rest : List CString} (more : rest ≠ []) :
    foldPath name parent inode (comp :: rest) = (do
      let inode ← pathStep name parent inode (comp.take 255)
      if inode = 0 then return 0 else foldPath name parent inode rest) := by
  cases rest with
  | nil => exact absurd rfl more
  | cons next others => rfl

theorem lookupPathLoop_eq {fuel : Nat} {path : CString} (enough : path.length < fuel)
    (live : inode ≠ 0) :
    lookupPathLoop name parent fuel inode path = foldPath name parent inode (components path) := by
  induction fuel generalizing inode path with
  | zero => omega
  | succ fuel ih =>
    unfold lookupPathLoop
    cases found : strchrY slash path with
    | none =>
      rw [components_noSlash (strchrY_none found)]
      simp only [foldPath, pathStep]
      by_cases empty : path = []
      · simp [empty]
      · by_cases dot : path = cstr "." <;> simp [empty, dot]
    | some rest =>
      obtain ⟨head, tail, noSlash, rfl, rfl⟩ := strchrY_some found
      have plen : (head ++ slash :: tail).length - (slash :: tail).length = head.length := by
        simp
      have shorter : tail.length < fuel := by
        simp only [length_append, length_cons] at enough
        omega
      have cut : (head ++ slash :: tail).take (min head.length 255) = head.take 255 := by
        rw [take_append_of_le_length (Nat.min_le_left _ _), take_eq_take_iff]
        omega
      rw [components_append noSlash, foldPath_cons _ _ (components_ne_nil tail)]
      simp only [plen, cut, drop_succ_cons, drop_zero]
      by_cases empty : head.length = 0
      · obtain rfl := length_eq_zero_iff.mp empty
        simp only [length_nil, if_true, nil_append, drop_succ_cons, drop_zero,
          pathStep, take_nil, true_or, ok_bind, live, if_false]
        exact ih shorter live
      · have nonempty : head.take 255 ≠ [] := by
          rw [ne_eq, take_eq_nil_iff]
          simpa using fun isNil : head = [] => empty (by simp [isNil])
        rw [if_neg empty]
        unfold pathStep
        by_cases dot : head.take 255 = cstr "."
        · simp only [dot, or_true, if_true, ok_bind, live, if_false]
          exact ih shorter live
        · simp only [dot, nonempty, or_self, if_false]
          by_cases dots : head.take 255 = cstr ".."
          · simp only [dots, if_true]
            cases parent inode with
            | error fault => rfl
            | ok above =>
              rw [ok_bind, ok_bind]
              by_cases zero : above = 0
              · rw [if_pos zero, if_pos zero]
              · rw [if_neg zero, if_neg zero]
                exact ih shorter zero
          · simp only [dots, if_false]
            cases name inode (head.take 255) with
            | error fault => rfl
            | ok below =>
              rw [ok_bind, ok_bind]
              by_cases zero : below = 0
              · rw [if_pos zero, if_pos zero]
              · rw [if_neg zero, if_neg zero]
                exact ih shorter zero

/-- The C loop is the fold over the components. -/
theorem lookupPath_eq (device : Device) (rootTree : Nat) (path : CString) :
    lookupPath device rootTree path =
      foldPath (lookupName device rootTree) (lookupParent device rootTree) 1
        (components path) := by
  unfold lookupPath
  by_cases empty : path = []
  · simp [empty, components, foldPath, pathStep]
  · rw [if_neg empty, lookupPathLoop_eq (Nat.lt_succ_self _) Nat.one_ne_zero]

theorem foldPath_induction {Visited : Nat → Prop}
    (step : ∀ {inode comp found}, Visited inode → pathStep name parent inode comp = .ok found →
      found ≠ 0 → Visited found)
    {found : Nat} (start : Visited inode) (looked : foldPath name parent inode comps = .ok found)
    (reached : found ≠ 0) : Visited found := by
  induction comps generalizing inode with
  | nil =>
    obtain rfl := Except.ok.inj looked
    exact start
  | cons comp rest ih =>
    cases rest with
    | nil => exact step start looked reached
    | cons next others =>
      rw [foldPath_cons _ _ (by simp)] at looked
      cases first : pathStep name parent inode (comp.take 255) with
      | error fault =>
        rw [first] at looked
        cases looked
      | ok middle =>
        rw [first, ok_bind] at looked
        by_cases zero : middle = 0
        · rw [if_pos zero] at looked
          exact absurd (Except.ok.inj looked).symm reached
        · rw [if_neg zero] at looked
          exact ih (step start first zero) looked

theorem foldPath_total (names : ∀ inode text, ∃ found, name inode text = .ok found)
    (parents : ∀ inode, ∃ found, parent inode = .ok found) (inode : Nat) (comps : List CString) :
    ∃ found, foldPath name parent inode comps = .ok found := by
  have steps : ∀ inode comp, ∃ found, pathStep name parent inode comp = .ok found := by
    intro inode comp
    unfold pathStep
    split
    · exact ⟨_, rfl⟩
    · split
      · exact parents inode
      · exact names inode comp
  induction comps generalizing inode with
  | nil => exact ⟨_, rfl⟩
  | cons comp rest ih =>
    cases rest with
    | nil => exact steps inode comp
    | cons next others =>
      rw [foldPath_cons _ _ (by simp)]
      obtain ⟨middle, stepped⟩ := steps inode (comp.take 255)
      rw [stepped, ok_bind]
      split
      · exact ⟨_, rfl⟩
      · exact ih middle

theorem foldPath_mono {name' : Nat → CString → Except Fault Nat} {parent' : Nat → Except Fault Nat}
    (names : ∀ {inode text found}, name inode text = .ok found → name' inode text = .ok found)
    (parents : ∀ {inode found}, parent inode = .ok found → parent' inode = .ok found)
    {found : Nat} (looked : foldPath name parent inode comps = .ok found) :
    foldPath name' parent' inode comps = .ok found := by
  have steps : ∀ {inode comp found}, pathStep name parent inode comp = .ok found →
      pathStep name' parent' inode comp = .ok found := by
    intro inode comp found stepped
    unfold pathStep at stepped ⊢
    split at stepped
    next skip => rwa [if_pos skip]
    next notSkip =>
      rw [if_neg notSkip]
      split at stepped
      next dots =>
        rw [if_pos dots]
        exact parents stepped
      next notDots =>
        rw [if_neg notDots]
        exact names stepped
  induction comps generalizing inode with
  | nil => exact looked
  | cons comp rest ih =>
    cases rest with
    | nil => exact steps looked
    | cons next others =>
      rw [foldPath_cons _ _ (by simp)] at looked ⊢
      cases first : pathStep name parent inode (comp.take 255) with
      | error fault =>
        rw [first] at looked
        cases looked
      | ok middle =>
        rw [first, ok_bind] at looked
        rw [steps first, ok_bind]
        by_cases zero : middle = 0
        · rwa [if_pos zero] at looked ⊢
        · rw [if_neg zero] at looked ⊢
          exact ih looked

theorem components_slash (head tail : CString) :
    components (head ++ slash :: tail) = components head ++ components tail := by
  induction head with
  | nil => simp [components]
  | cons byte head ih =>
    rw [cons_append, components, ih]
    conv_rhs => rw [components]
    by_cases isSlash : byte = slash
    · rw [if_pos isSlash, if_pos isSlash, cons_append]
    · rw [if_neg isSlash, if_neg isSlash]
      cases parts : components head with
      | nil => exact absurd parts (components_ne_nil head)
      | cons first others => rfl

theorem components_length {path comp : CString} (member : comp ∈ components path) :
    comp.length ≤ path.length := by
  induction path generalizing comp with
  | nil =>
    obtain rfl : comp = [] := by simpa [components] using member
    exact Nat.le_refl _
  | cons byte rest ih =>
    rw [components] at member
    split at member
    next =>
      rcases mem_cons.mp member with rfl | later
      · exact Nat.zero_le _
      · exact Nat.le_succ_of_le (ih later)
    next =>
      cases parts : components rest with
      | nil => exact absurd parts (components_ne_nil rest)
      | cons first others =>
        rw [parts] at member ih
        rcases mem_cons.mp member with rfl | later
        · exact Nat.succ_le_succ (ih mem_cons_self)
        · exact Nat.le_succ_of_le (ih (mem_cons_of_mem _ later))

theorem foldPath_snoc {middle : Nat} {last : CString}
    (some : comps ≠ []) (short : ∀ comp ∈ comps, comp.length ≤ 255)
    (looked : foldPath name parent inode comps = .ok middle) (live : middle ≠ 0) :
    foldPath name parent inode (comps ++ [last]) = pathStep name parent middle last := by
  induction comps generalizing inode with
  | nil => exact absurd rfl some
  | cons comp rest ih =>
    have whole : comp.take 255 = comp := take_of_length_le (short comp mem_cons_self)
    rw [cons_append, foldPath_cons _ _ (by simp), whole]
    cases rest with
    | nil =>
      have stepped : pathStep name parent inode comp = .ok middle := looked
      rw [stepped, ok_bind, if_neg live]
      rfl
    | cons next others =>
      rw [foldPath_cons _ _ (by simp), whole] at looked
      obtain ⟨found, stepped, looked⟩ := bind_ok looked
      rw [stepped, ok_bind]
      by_cases zero : found = 0
      · rw [if_pos zero] at looked
        exact absurd (Except.ok.inj looked).symm live
      · rw [if_neg zero] at looked ⊢
        exact ih (by simp) (fun comp member => short comp (mem_cons_of_mem _ member)) looked

theorem foldPath_live {name' : Nat → CString → Except Fault Nat} {parent' : Nat → Except Fault Nat}
    (steps : ∀ {inode comp found}, pathStep name parent inode comp = .ok found → found ≠ 0 →
      pathStep name' parent' inode comp = .ok found)
    {found : Nat} (looked : foldPath name parent inode comps = .ok found) (live : found ≠ 0) :
    foldPath name' parent' inode comps = .ok found := by
  induction comps generalizing inode with
  | nil => exact looked
  | cons comp rest ih =>
    cases rest with
    | nil => exact steps looked live
    | cons next others =>
      rw [foldPath_cons _ _ (by simp)] at looked ⊢
      obtain ⟨middle, stepped, looked⟩ := bind_ok looked
      by_cases zero : middle = 0
      · rw [if_pos zero] at looked
        exact absurd (Except.ok.inj looked).symm live
      · rw [if_neg zero] at looked
        rw [steps stepped zero, ok_bind, if_neg zero]
        exact ih looked

theorem strrchrY_none (missing : strrchrY c text = none) : c ∉ text := by
  induction text with
  | nil => simp
  | cons byte text ih =>
    unfold strrchrY at missing
    cases later : strrchrY c text with
    | some found =>
      rw [later] at missing
      cases missing
    | none =>
      rw [later] at missing
      dsimp only at missing
      split at missing
      next => cases missing
      next other => simpa [ih later] using fun same : c = byte => other same.symm

theorem strrchrY_some {rest : CString} (found : strrchrY c text = some rest) :
    ∃ head tail, c ∉ tail ∧ rest = c :: tail ∧ text = head ++ c :: tail := by
  induction text generalizing rest with
  | nil => cases found
  | cons byte text ih =>
    unfold strrchrY at found
    cases later : strrchrY c text with
    | some found' =>
      rw [later] at found
      cases found
      obtain ⟨head, tail, absent, rfl, rfl⟩ := ih later
      exact ⟨byte :: head, tail, absent, rfl, rfl⟩
    | none =>
      rw [later] at found
      dsimp only at found
      split at found
      next isC =>
        cases found
        refine ⟨[], text, strrchrY_none later, by rw [isC], by rw [isC]; rfl⟩
      next => cases found

end M4KK1.Yafs

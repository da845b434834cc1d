import Mathlib.Data.Finset.Max
import M4KK1.Copland.ObjectTables

/-!
# Reaping clients that have exited

The records are right after `copland_reap_dead_clients`; the damage begins anew with each client.
-/

namespace M4KK1.Copland

open M4KK1.Lib List

variable {c d : Compositor} {i : Fin cpMaxClients} {alive : List Nat}

/-- The right edge, as the code computes it. -/
def Box.right (box : Box) : Int := int32 (box.x + box.w)

/-- The lower edge, as the code computes it. -/
def Box.bottom (box : Box) : Int := int32 (box.y + box.h)

/-- The point is in the box. -/
def Box.Has (box : Box) (px py : Int) : Prop :=
  (box.x ≤ px ∧ px < box.right) ∧ box.y ≤ py ∧ py < box.bottom

def Box.Contains (box other : Box) : Prop := ∀ px py, other.Has px py → box.Has px py

theorem int32_sub_add (edge x : Int) : int32 (x + int32 (int32 edge - x)) = int32 edge := by
  unfold int32
  rw [Int.add_bmod_bmod, ← Int.add_sub_assoc, Int.add_comm, Int.add_sub_cancel, Int.bmod_bmod]

theorem reapedDamage_edges (damage : Box) (s : SurfaceState) (px py : Int) :
    ((reapedDamage damage s).x ≤ px ↔ damage.x ≤ px ∨ s.box.x ≤ px) ∧
      (px < (reapedDamage damage s).right ↔ px < damage.right ∨ px < s.box.right) ∧
      ((reapedDamage damage s).y ≤ py ↔ damage.y ≤ py ∨ s.box.y ≤ py) ∧
      (py < (reapedDamage damage s).bottom ↔ py < damage.bottom ∨ py < s.box.bottom) := by
  have edge : ∀ a b x : Int,
    int32 (x + int32 ((if int32 b > int32 a then int32 b else int32 a) - x)) =
      if int32 b > int32 a then int32 b else int32 a := by
    intro a b x
    split <;> exact int32_sub_add _ x
  simp only [Box.right, Box.bottom, reapedDamage, SurfaceState.box, edge]
  refine ⟨?_, ?_, ?_, ?_⟩ <;> split <;> omega

/-- The slot has a surface of the client, among those that are looked at. -/
def Compositor.Owned (c : Compositor) (slots : List (Fin cpMaxSurfaces)) (clientId : Nat)
    (k : Fin cpMaxSurfaces) : Prop :=
  k ∈ slots ∧ (c.surfaces k).objId ≠ 0 ∧ (c.surfaces k).clientId = clientId

/-- A surface of the client has such an edge, or the box has, when there is one. -/
def Compositor.Reaches (c : Compositor) (slots : List (Fin cpMaxSurfaces)) (clientId : Nat)
    (start : Option Box)
    (edge : Box → Prop) : Prop :=
  (∃ box ∈ start, edge box) ∨ ∃ k, c.Owned slots clientId k ∧ edge (c.surfaces k).box

def Compositor.Hull (c : Compositor) (slots : List (Fin cpMaxSurfaces)) (clientId : Nat)
    (start : Option Box)
    (px py : Int) : Prop :=
  (c.Reaches slots clientId start (·.x ≤ px) ∧ c.Reaches slots clientId start (px < ·.right)) ∧
    c.Reaches slots clientId start (·.y ≤ py) ∧ c.Reaches slots clientId start (py < ·.bottom)

theorem reapSurfaces_rest (clientId : Nat) (damaged : Bool) (slots : List (Fin cpMaxSurfaces)) :
    ∃ surfaces zlist frameDmg frameDirty, reapSurfaces c clientId damaged slots =
      { c with
        surfaces := surfaces, zlist := zlist, frameDmg := frameDmg,
        frameDirty := frameDirty } := by
  induction slots generalizing c damaged with
  | nil => exact ⟨c.surfaces, c.zlist, c.frameDmg, c.frameDirty, rfl⟩
  | cons k rest ih =>
    unfold reapSurfaces
    dsimp only
    split
    · exact ih damaged
    · split
      · obtain ⟨surfaces, zlist, frameDmg, frameDirty, isState⟩ := @ih
          ((cpZlistRemove { c with frameDmg := reapedDamage c.frameDmg (c.surfaces k) }
            k).setSurface k
            { c.surfaces k with objId := 0 }) true
        exact ⟨surfaces, zlist, frameDmg, frameDirty, isState⟩
      · obtain ⟨surfaces, zlist, frameDmg, frameDirty, isState⟩ := @ih
          ((cpZlistRemove { c with frameDmg := (c.surfaces k).box, frameDirty := true }
            k).setSurface k
            { c.surfaces k with objId := 0 }) true
        exact ⟨surfaces, zlist, frameDmg, frameDirty, isState⟩

section Loop

variable {k slot : Fin cpMaxSurfaces} {rest : List (Fin cpMaxSurfaces)} {clientId : Nat}

theorem owned_skip (skipped : (c.surfaces k).objId = 0 ∨ (c.surfaces k).clientId ≠ clientId) :
    c.Owned (k :: rest) clientId slot ↔ c.Owned rest clientId slot := by
  unfold Compositor.Owned
  rw [mem_cons]
  constructor
  · rintro ⟨rfl | member, live, owner⟩
    · exact absurd skipped (by simp [live, owner])
    · exact ⟨member, live, owner⟩
  · rintro ⟨member, live, owner⟩
    exact ⟨.inr member, live, owner⟩

theorem owned_take (owned : ¬((c.surfaces k).objId = 0 ∨ (c.surfaces k).clientId ≠ clientId)) :
    c.Owned (k :: rest) clientId slot ↔ slot = k ∨ c.Owned rest clientId slot := by
  obtain ⟨live, owner⟩ := not_or.mp owned
  unfold Compositor.Owned
  rw [mem_cons]
  constructor
  · rintro ⟨rfl | member, holds⟩
    · exact .inl rfl
    · exact .inr ⟨member, holds⟩
  · rintro (rfl | ⟨member, holds⟩)
    · exact ⟨.inl rfl, live, not_not.mp owner⟩
    · exact ⟨.inr member, holds⟩

/-- The compositor behind one turn of the loop that removes a surface. -/
def Compositor.without (c : Compositor) (k : Fin cpMaxSurfaces) (damage : Box) (dirty : Bool) :
    Compositor :=
  (cpZlistRemove { c with frameDmg := damage, frameDirty := dirty } k).setSurface k
    { c.surfaces k with objId := 0 }

theorem reapSurfaces_take (owned : ¬((c.surfaces k).objId = 0 ∨ (c.surfaces k).clientId ≠ clientId))
    (damaged : Bool) :
    reapSurfaces c clientId damaged (k :: rest) =
      reapSurfaces
        (if damaged then c.without k (reapedDamage c.frameDmg (c.surfaces k)) c.frameDirty
        else c.without k (c.surfaces k).box true) clientId true rest := by
  rw [reapSurfaces]
  dsimp only
  rw [if_neg owned]
  cases damaged <;> rfl

theorem reapSurfaces_skip (skipped : (c.surfaces k).objId = 0 ∨ (c.surfaces k).clientId ≠ clientId)
    (damaged : Bool) :
    reapSurfaces c clientId damaged (k :: rest) = reapSurfaces c clientId damaged rest := by
  rw [reapSurfaces]
  exact if_pos skipped

theorem without_owned (damage : Box) (dirty : Bool) (fresh : k ∉ rest) :
    (c.without k damage dirty).Owned rest clientId slot ↔ c.Owned rest clientId slot := by
  unfold Compositor.Owned Compositor.without Compositor.setSurface cpZlistRemove
  by_cases here : slot = k
  · subst here
    simp [fresh]
  · simp [here]

theorem without_box (damage : Box) (dirty : Bool) :
    ((c.without k damage dirty).surfaces slot).box = (c.surfaces slot).box := by
  unfold Compositor.without Compositor.setSurface cpZlistRemove
  by_cases here : slot = k
  · subst here
    simp [SurfaceState.box]
  · simp [here]

theorem reapSurfaces_zlist {damaged : Bool} {slots : List (Fin cpMaxSurfaces)}
    (once : c.zlist.Nodup)
    (distinct : slots.Nodup) :
    (reapSurfaces c clientId damaged slots).zlist.Nodup ∧
      (reapSurfaces c clientId damaged slots).zlist.Sublist c.zlist ∧
      ∀ k, k ∈ (reapSurfaces c clientId damaged slots).zlist ↔
        k ∈ c.zlist ∧ ¬c.Owned slots clientId k := by
  induction slots generalizing c damaged with
  | nil => exact ⟨once, List.Sublist.refl _, fun k => by simp [Compositor.Owned, reapSurfaces]⟩
  | cons k rest ih =>
    obtain ⟨fresh, distinct⟩ := nodup_cons.mp distinct
    by_cases skipped : (c.surfaces k).objId = 0 ∨ (c.surfaces k).clientId ≠ clientId
    · rw [reapSurfaces_skip skipped]
      obtain ⟨once', sub, members⟩ := @ih c damaged once distinct
      exact ⟨once', sub, fun slot => by rw [members slot, owned_skip skipped]⟩
    · rw [reapSurfaces_take skipped]
      have behind : ∀ damage dirty, ((c.without k damage dirty).zlist = c.zlist.erase k) :=
        fun _ _ => rfl
      have turn : ∀ damage dirty,
        (reapSurfaces (c.without k damage dirty) clientId true rest).zlist.Nodup ∧
          (reapSurfaces (c.without k damage dirty) clientId true rest).zlist.Sublist c.zlist ∧
          ∀ slot, slot ∈ (reapSurfaces (c.without k damage dirty) clientId true rest).zlist ↔
            slot ∈ c.zlist ∧ ¬c.Owned (k :: rest) clientId slot := by
        intro damage dirty
        obtain ⟨once', sub, members⟩ := @ih (c.without k damage dirty) true (once.erase k) distinct
        rw [behind] at sub
        refine ⟨once', sub.trans erase_sublist, fun slot => ?_⟩
        rw [members slot, behind, once.mem_erase_iff, without_owned damage dirty fresh,
          owned_take skipped]
        tauto
      split
      · exact turn _ _
      · exact turn _ _

theorem reaches_take {start : Option Box} {damage : Box} {dirty : Bool} {edge : Box → Prop}
    (fresh : k ∉ rest)
    (owned : ¬((c.surfaces k).objId = 0 ∨ (c.surfaces k).clientId ≠ clientId))
    (isEdge : edge damage ↔ (∃ box ∈ start, edge box) ∨ edge (c.surfaces k).box) :
    (c.without k damage dirty).Reaches rest clientId (some damage) edge ↔
    c.Reaches (k :: rest) clientId start edge := by
  have here : (∃ box ∈ some damage, edge box) ↔ edge damage := by simp
  simp only [Compositor.Reaches, here, isEdge, without_owned damage dirty fresh, without_box,
    owned_take owned]
  constructor
  · rintro ((isStart | isHere) | ⟨slot, isOwned, isEdge⟩)
    · exact .inl isStart
    · exact .inr ⟨k, .inl rfl, isHere⟩
    · exact .inr ⟨slot, .inr isOwned, isEdge⟩
  · rintro (isStart | ⟨slot, rfl | isOwned, atSlot⟩)
    · exact .inl (.inl isStart)
    · exact .inl (.inr atSlot)
    · exact .inr ⟨slot, isOwned, atSlot⟩

theorem reapSurfaces_damage {damaged : Bool} {slots : List (Fin cpMaxSurfaces)}
    (distinct : slots.Nodup)
    (some_ : damaged = true ∨ ∃ k, c.Owned slots clientId k) (px py : Int) :
    (reapSurfaces c clientId damaged slots).frameDmg.Has px py ↔
      c.Hull slots clientId (if damaged then some c.frameDmg else none) px py := by
  induction slots generalizing c damaged with
  | nil =>
    rcases some_ with rfl | ⟨k, absent, -⟩
    · simp [reapSurfaces, Compositor.Hull, Compositor.Reaches, Compositor.Owned, Box.Has]
    · cases absent
  | cons k rest ih =>
    obtain ⟨fresh, distinct⟩ := nodup_cons.mp distinct
    by_cases skipped : (c.surfaces k).objId = 0 ∨ (c.surfaces k).clientId ≠ clientId
    · rw [reapSurfaces_skip skipped]
      simp only [owned_skip skipped] at some_
      rw [ih distinct some_]
      simp only [Compositor.Hull, Compositor.Reaches, owned_skip skipped]
    · rw [reapSurfaces_take skipped]
      cases damaged with
      | false =>
        rw [if_neg Bool.false_ne_true, ih distinct (.inl rfl), if_neg Bool.false_ne_true,
          if_pos rfl]
        exact and_congr
          (and_congr (reaches_take fresh skipped (by simp)) (reaches_take fresh skipped (by simp)))
          (and_congr (reaches_take fresh skipped (by simp)) (reaches_take fresh skipped (by simp)))
      | true =>
        rw [if_pos rfl, ih distinct (.inl rfl), if_pos rfl]
        obtain ⟨left, right, top, bottom⟩ := reapedDamage_edges c.frameDmg (c.surfaces k) px py
        exact and_congr
          (and_congr (reaches_take fresh skipped (by simpa using left))
            (reaches_take fresh skipped (by simpa using right)))
          (and_congr (reaches_take fresh skipped (by simpa using top))
            (reaches_take fresh skipped (by simpa using bottom)))

theorem reapSurfaces_dirty {damaged : Bool} {slots : List (Fin cpMaxSurfaces)}
    (distinct : slots.Nodup) :
    ((∀ k, ¬c.Owned slots clientId k) → (reapSurfaces c clientId damaged slots).frameDmg =
      c.frameDmg) ∧
      (c.frameDirty = true ∨ damaged = false ∧ (∃ k, c.Owned slots clientId k) →
        (reapSurfaces c clientId damaged slots).frameDirty = true) := by
  induction slots generalizing c damaged with
  | nil =>
    refine ⟨fun _ => rfl, fun dirty => ?_⟩
    rcases dirty with dirty | ⟨-, k, absent, -⟩
    · exact dirty
    · cases absent
  | cons k rest ih =>
    obtain ⟨fresh, distinct⟩ := nodup_cons.mp distinct
    by_cases skipped : (c.surfaces k).objId = 0 ∨ (c.surfaces k).clientId ≠ clientId
    · rw [reapSurfaces_skip skipped]
      simp only [owned_skip skipped]
      exact ih distinct
    · rw [reapSurfaces_take skipped]
      refine ⟨fun none_ => absurd ((owned_take skipped).mpr (.inl rfl)) (none_ k), fun dirty => ?_⟩
      apply (@ih _ true distinct).2 (.inl ?_)
      cases damaged with
      | false => rfl
      | true =>
        rcases dirty with dirty | ⟨absent, -⟩
        · exact dirty
        · cases absent

end Loop

/-- A pass with these processes alive finds the client dead. -/
def Compositor.Dead (c : Compositor) (alive : List Nat) (i : Fin cpMaxClients) : Prop :=
  alive ≠ [] ∧ (c.clients i).active = true ∧ (c.clients i).connPid ≠ 0 ∧
  (c.clients i).connPid ∉ alive

/-- Client `i` is dead and has the surface. -/
def Compositor.Removes (c : Compositor) (alive : List Nat) (i : Fin cpMaxClients)
    (k : Fin cpMaxSurfaces) : Prop :=
  c.Dead alive i ∧ (c.surfaces k).objId ≠ 0 ∧ (c.surfaces k).clientId = (c.clients i).clientId

/-- No two dead clients have the same id. -/
def Compositor.Apart (c : Compositor) (alive : List Nat) : Prop :=
  ∀ i j, c.Dead alive i → c.Dead alive j → (c.clients i).clientId = (c.clients j).clientId → i = j

section Client

variable {j : Fin cpMaxClients} {k : Fin cpMaxSurfaces}

theorem reapClient_other (other : j ≠ i) : (reapClient c i).clients j = c.clients j := by
  obtain ⟨surfaces, zlist, frameDmg, frameDirty, isState⟩ :=
    @reapSurfaces_rest c (c.clients i).clientId false (List.finRange cpMaxSurfaces)
  unfold reapClient
  dsimp only
  rw [isState]
  exact Function.update_of_ne other _ _

theorem reapClient_inactive : ((reapClient c i).clients i).active = false := by
  unfold reapClient Compositor.setClient
  simp

theorem reapClient_callbacks : (reapClient c i).callbacks k =
    if (c.callbacks k).clientId = (c.clients i).clientId then { c.callbacks k with objId := 0 }
      else c.callbacks k := by
  obtain ⟨surfaces, zlist, frameDmg, frameDirty, isState⟩ :=
    @reapSurfaces_rest c (c.clients i).clientId false (List.finRange cpMaxSurfaces)
  unfold reapClient
  dsimp only
  rw [isState]
  rfl

theorem reapClient_surfaces :
    (reapClient c i).surfaces k = (c.surfaces k).reaped (c.clients i).clientId :=
  congrFun (congrArg Tables.surfaces (reapClient_tables c i)) k

theorem reapClient_dead (other : j ≠ i) : (reapClient c i).Dead alive j ↔ c.Dead alive j := by
  unfold Compositor.Dead
  rw [reapClient_other other]

theorem reapClient_apart (apart : c.Apart alive) : (reapClient c i).Apart alive := by
  have stays : ∀ j, (reapClient c i).Dead alive j → j ≠ i ∧ c.Dead alive j := by
    intro j dead
    have other : j ≠ i := by
      rintro rfl
      exact absurd dead.2.1 (by simp [reapClient_inactive])
    exact ⟨other, (reapClient_dead other).mp dead⟩
  intro left right leftDead rightDead same
  obtain ⟨leftOther, leftDead⟩ := stays left leftDead
  obtain ⟨rightOther, rightDead⟩ := stays right rightDead
  rw [reapClient_other leftOther, reapClient_other rightOther] at same
  exact apart left right leftDead rightDead same

theorem reapClient_removes (apart : c.Apart alive) (dead : c.Dead alive i) (other : j ≠ i) :
    (reapClient c i).Removes alive j k ↔ c.Removes alive j k := by
  unfold Compositor.Removes
  rw [reapClient_dead other, reapClient_other other, reapClient_surfaces, SurfaceState.reaped]
  refine and_congr_right fun otherDead => ?_
  split
  · next owned =>
    refine iff_of_false (fun live => live.1 rfl) fun live => ?_
    exact other (apart i j dead otherDead (owned.symm.trans live.2)).symm
  · exact Iff.rfl

theorem owned_finRange {clientId : Nat} : c.Owned (List.finRange cpMaxSurfaces) clientId k ↔
    (c.surfaces k).objId ≠ 0 ∧ (c.surfaces k).clientId = clientId :=
  and_iff_right (mem_finRange k)

end Client

def reapPass (alive : List Nat) (slots : List (Fin cpMaxClients)) (c : Compositor) : Compositor :=
  slots.foldl
    (fun c i =>
      if alive = [] ∨ (c.clients i).active = false ∨ (c.clients i).connPid = 0 ∨
          (c.clients i).connPid ∈ alive
      then c else reapClient c i)
    c

theorem coplandReapDeadClients_eq :
    coplandReapDeadClients c alive = reapPass alive (List.finRange cpMaxClients) c := by
  unfold coplandReapDeadClients reapPass
  by_cases empty : alive = []
  · rw [if_pos empty]
    simp only [empty, true_or, if_true]
    exact (foldl_fixed _).symm
  · rw [if_neg empty]
    simp only [empty, false_or]

section Pass

variable {slots : List (Fin cpMaxClients)}

theorem reapPass_dead (dead : c.Dead alive i) :
    reapPass alive (i :: slots) c = reapPass alive slots (reapClient c i) := by
  rw [reapPass, foldl_cons, if_neg (by simpa [Compositor.Dead] using dead)]
  rfl

theorem reapPass_live (live : ¬c.Dead alive i) :
    reapPass alive (i :: slots) c = reapPass alive slots c := by
  rw [reapPass, foldl_cons, if_pos]
  · rfl
  · by_contra dead
    exact live (by simpa [Compositor.Dead] using dead)

theorem reapPass_clients {j : Fin cpMaxClients} (live : ¬c.Dead alive j) :
    (reapPass alive slots c).clients j = c.clients j := by
  induction slots generalizing c with
  | nil => rfl
  | cons i rest ih =>
    by_cases dead : c.Dead alive i
    · have other : j ≠ i := by
        rintro rfl
        exact live dead
      rw [reapPass_dead dead, ih (fun dead' => live ((reapClient_dead other).mp dead')),
        reapClient_other other]
    · rw [reapPass_live dead, ih live]

theorem reapPass_record {α : Type} (get : Compositor → α) (owner : α → Nat) (clear : α → α)
    (kept : ∀ a, owner (clear a) = owner a) (twice : ∀ a, clear (clear a) = clear a)
    (step : ∀ c i, get (reapClient c i) = if owner (get c) = (c.clients i).clientId then
      clear (get c) else get c)
    (distinct : slots.Nodup) :
    ((∃ i ∈ slots, c.Dead alive i ∧ (c.clients i).clientId = owner (get c)) →
        get (reapPass alive slots c) = clear (get c)) ∧
      ((¬∃ i ∈ slots, c.Dead alive i ∧ (c.clients i).clientId = owner (get c)) →
        get (reapPass alive slots c) = get c) := by
  induction slots generalizing c with
  | nil => exact ⟨fun ⟨i, absent, _⟩ => (nomatch absent), fun _ => rfl⟩
  | cons i rest ih =>
    obtain ⟨fresh, distinct⟩ := nodup_cons.mp distinct
    by_cases dead : c.Dead alive i
    · rw [reapPass_dead dead]
      have same : owner (get (reapClient c i)) = owner (get c) := by
        rw [step]
        split
        · exact kept _
        · rfl
      have later : (∃ j ∈ rest, (reapClient c i).Dead alive j ∧
        ((reapClient c i).clients j).clientId = owner (get c)) ↔
          ∃ j ∈ rest, c.Dead alive j ∧ (c.clients j).clientId = owner (get c) := by
        refine exists_congr fun j => and_congr_right fun member => ?_
        have other : j ≠ i := fun same => fresh (same ▸ member)
        rw [reapClient_dead other, reapClient_other other]
      obtain ⟨cleared, left⟩ := @ih (reapClient c i) distinct
      rw [same, later] at cleared left
      by_cases owned : owner (get c) = (c.clients i).clientId
      · refine ⟨fun _ => ?_, fun none_ => absurd ⟨i, mem_cons_self, dead, owned.symm⟩ none_⟩
        have now : get (reapClient c i) = clear (get c) := by rw [step, if_pos owned]
        by_cases again : ∃ j ∈ rest, c.Dead alive j ∧ (c.clients j).clientId = owner (get c)
        · rw [cleared again, now, twice]
        · rw [left again, now]
      · have now : get (reapClient c i) = get c := by rw [step, if_neg owned]
        rw [now] at cleared left
        refine ⟨?_, fun none_ => left fun ⟨j, member, holds⟩ =>
          none_ ⟨j, mem_cons_of_mem _ member, holds⟩⟩
        rintro ⟨j, member, dead', owned'⟩
        rcases mem_cons.mp member with rfl | member
        · exact absurd owned'.symm owned
        · exact cleared ⟨j, member, dead', owned'⟩
    · rw [reapPass_live dead]
      obtain ⟨cleared, left⟩ := @ih c distinct
      refine ⟨?_, fun none_ => left fun ⟨j, member, holds⟩ =>
        none_ ⟨j, mem_cons_of_mem _ member, holds⟩⟩
      rintro ⟨j, member, dead', owned⟩
      rcases mem_cons.mp member with rfl | member
      · exact absurd dead' dead
      · exact cleared ⟨j, member, dead', owned⟩

theorem reapPass_zlist (apart : c.Apart alive) (once : c.zlist.Nodup) (distinct : slots.Nodup) :
    (reapPass alive slots c).zlist.Sublist c.zlist ∧
      ∀ k, k ∈ (reapPass alive slots c).zlist ↔
        k ∈ c.zlist ∧ ¬∃ i ∈ slots, c.Removes alive i k := by
  induction slots generalizing c with
  | nil => exact ⟨List.Sublist.refl _, fun k => by simp [reapPass]⟩
  | cons i rest ih =>
    obtain ⟨fresh, distinct⟩ := nodup_cons.mp distinct
    by_cases dead : c.Dead alive i
    · rw [reapPass_dead dead]
      obtain ⟨once', sub', members'⟩ := @reapSurfaces_zlist c (c.clients i).clientId false _ once
        (nodup_finRange cpMaxSurfaces)
      have behind : (reapClient c i).zlist =
        (reapSurfaces c (c.clients i).clientId false (List.finRange cpMaxSurfaces)).zlist := rfl
      rw [← behind] at once' sub' members'
      obtain ⟨sub, members⟩ := ih (reapClient_apart apart) once' distinct
      refine ⟨sub.trans sub', fun k => ?_⟩
      have later : (∃ j ∈ rest, (reapClient c i).Removes alive j k) ↔
          ∃ j ∈ rest, c.Removes alive j k := by
        refine exists_congr fun j => and_congr_right fun member => ?_
        exact reapClient_removes apart dead fun same => fresh (same ▸ member)
      have here : c.Removes alive i k ↔
          c.Owned (List.finRange cpMaxSurfaces) (c.clients i).clientId k :=
        (and_iff_right dead).trans owned_finRange.symm
      rw [members k, members' k, later, exists_mem_cons_iff, here, not_or, and_assoc]
    · rw [reapPass_live dead]
      obtain ⟨sub, members⟩ := ih apart once distinct
      refine ⟨sub, fun k => ?_⟩
      have here : ¬c.Removes alive i k := fun removes => dead removes.1
      rw [members k, exists_mem_cons_iff, or_iff_right here]

theorem reapPass_damage_same (apart : c.Apart alive) (distinct : slots.Nodup)
    (none_ : ∀ i ∈ slots, ∀ k, ¬c.Removes alive i k) :
    (reapPass alive slots c).frameDmg = c.frameDmg := by
  induction slots generalizing c with
  | nil => rfl
  | cons i rest ih =>
    obtain ⟨fresh, distinct⟩ := nodup_cons.mp distinct
    obtain ⟨noneHere, noneLater⟩ := forall_mem_cons.mp none_
    by_cases dead : c.Dead alive i
    · rw [reapPass_dead dead, ih (reapClient_apart apart) distinct]
      · refine (@reapSurfaces_dirty c (c.clients i).clientId false _
          (nodup_finRange cpMaxSurfaces)).1 fun k owned => ?_
        exact noneHere k ⟨dead, owned_finRange.mp owned⟩
      · intro j member k removes
        exact noneLater j member k
          ((reapClient_removes apart dead fun same => fresh (same ▸ member)).mp removes)
    · rw [reapPass_live dead, ih apart distinct noneLater]

theorem reapPass_damage {before after : List (Fin cpMaxClients)} {last : Fin cpMaxClients}
    (apart : c.Apart alive)
    (distinct : (before ++ last :: after).Nodup) (some_ : ∃ k, c.Removes alive last k)
    (none_ : ∀ i ∈ after, ∀ k, ¬c.Removes alive i k) (px py : Int) :
    (reapPass alive (before ++ last :: after) c).frameDmg.Has px py ↔
      c.Hull (List.finRange cpMaxSurfaces) (c.clients last).clientId none px py := by
  induction before generalizing c with
  | nil =>
    obtain ⟨k, dead, owned⟩ := some_
    rw [nil_append] at distinct ⊢
    obtain ⟨fresh, distinct⟩ := nodup_cons.mp distinct
    rw [reapPass_dead dead, reapPass_damage_same (reapClient_apart apart) distinct]
    · exact reapSurfaces_damage (nodup_finRange cpMaxSurfaces) (.inr ⟨k, owned_finRange.mpr owned⟩)
        px py
    · intro j member k removes
      exact none_ j member
        k ((reapClient_removes apart dead fun same => fresh (same ▸ member)).mp removes)
  | cons i before ih =>
    rw [cons_append] at distinct ⊢
    obtain ⟨fresh, distinct⟩ := nodup_cons.mp distinct
    by_cases dead : c.Dead alive i
    · have notLast : last ≠ i := fun same => fresh (by simp [same])
      have isOther : ∀ j ∈ after, j ≠ i := fun j member same => fresh (by simp [← same, member])
      rw [reapPass_dead dead, ih (reapClient_apart apart) distinct]
      · rw [reapClient_other notLast]
        obtain ⟨-, lastDead, -⟩ := some_
        have ids : (c.clients i).clientId ≠ (c.clients last).clientId := fun same =>
          notLast (apart i last dead lastDead same).symm
        have owned : ∀ k, (reapClient c i).Owned (List.finRange cpMaxSurfaces)
          (c.clients last).clientId k ↔
            c.Owned (List.finRange cpMaxSurfaces) (c.clients last).clientId k := by
          intro k
          rw [owned_finRange, owned_finRange, reapClient_surfaces, SurfaceState.reaped]
          split
          · next isOwner =>
              exact iff_of_false (fun live => live.1 rfl) fun live =>
              ids (isOwner.symm.trans live.2)
          · exact Iff.rfl
        have box : ∀ k, ((reapClient c i).surfaces k).box = (c.surfaces k).box := by
          intro k
          rw [reapClient_surfaces, SurfaceState.reaped]
          split <;> rfl
        simp only [Compositor.Hull, Compositor.Reaches, owned, box]
      · obtain ⟨k, removes⟩ := some_
        exact ⟨k, (reapClient_removes apart dead notLast).mpr removes⟩
      · intro j member k removes
        exact none_ j member k ((reapClient_removes apart dead (isOther j member)).mp removes)
    · rw [reapPass_live dead]
      exact ih apart distinct some_ none_

theorem reapPass_dirty (apart : c.Apart alive) (distinct : slots.Nodup)
    (dirty : c.frameDirty = true ∨ ∃ i ∈ slots, ∃ k, c.Removes alive i k) :
    (reapPass alive slots c).frameDirty = true := by
  induction slots generalizing c with
  | nil =>
    rcases dirty with dirty | ⟨i, absent, -⟩
    · exact dirty
    · cases absent
  | cons i rest ih =>
    obtain ⟨fresh, distinct⟩ := nodup_cons.mp distinct
    by_cases dead : c.Dead alive i
    · rw [reapPass_dead dead]
      have turn :=
        (@reapSurfaces_dirty c (c.clients i).clientId false _ (nodup_finRange cpMaxSurfaces)).2
      apply ih (reapClient_apart apart) distinct
      rcases dirty with dirty | ⟨j, member, k, removes⟩
      · exact .inl (turn (.inl dirty))
      · by_cases here : j = i
        · subst here
          exact .inl (turn (.inr ⟨rfl, k, owned_finRange.mpr removes.2⟩))
        · rcases mem_cons.mp member with same | member
          · exact absurd same here
          · exact .inr ⟨j, member, k, (reapClient_removes apart dead here).mpr removes⟩
    · rw [reapPass_live dead]
      apply ih apart distinct
      rcases dirty with dirty | ⟨j, member, k, removes⟩
      · exact .inl dirty
      · rcases mem_cons.mp member with rfl | member
        · exact absurd removes.1 dead
        · exact .inr ⟨j, member, k, removes⟩

end Pass

section Once

variable {req : Request}

section

variable (once : c.zlist.Nodup)

include once

theorem once_insertTop (k : Fin cpMaxSurfaces) : (cpZlistInsertTop c k).zlist.Nodup := by
  have appended : ∀ list : List (Fin cpMaxSurfaces), list.Nodup → k ∉ list →
      (list ++ [k]).Nodup := by
    intro list distinct absent
    refine nodup_append.mpr ⟨distinct, nodup_singleton k, fun held member other single => ?_⟩
    rw [mem_singleton.mp single]
    rintro rfl
    exact absent member
  unfold cpZlistInsertTop
  split
  · exact appended _ (once.erase k) once.not_mem_erase
  · next absent =>
    split
    · exact appended _ once absent
    · exact once

theorem once_surface : (cpHandleSurface c i req.obj req.opcode req.args).1.zlist.Nodup := by
  unfold cpHandleSurface
  dsimp only
  split
  case h_1 => exact once
  case h_2 k found =>
    split
    case h_1 =>
      rw [show ∀ d : Compositor, ∀ s, (Compositor.setSurface d k s).zlist =
        d.zlist from fun _ _ => rfl]
      rw [show ∀ d : Compositor, (d.unmap i req.obj).zlist = d.zlist from fun _ => rfl,
        cpFrameAccum_zlist]
      exact once.erase k
    case h_4 =>
      rw [addCallback_zlist]
      exact once
    case h_7 =>
      rw [foldl_cpFrameAccum_zlist]
      exact once
    case h_8 => split <;> exact once
    all_goals exact once

theorem once_compositor : (cpHandleCompositor c i req.opcode req.args).1.zlist.Nodup := by
  unfold cpHandleCompositor
  split
  case h_1 =>
    dsimp only
    split
    case h_1 => exact once
    case h_2 k found =>
      split
      · exact once
      · exact once_insertTop (by exact once) k
  case h_2 =>
    dsimp only
    split <;> exact once
  case h_3 => exact once
  case h_4 => exact once

theorem once_registry : (cpHandleRegistry c i req.opcode req.args).1.zlist.Nodup := by
  unfold cpHandleRegistry
  split
  case isFalse => exact once
  case isTrue =>
    dsimp only
    split
    case h_1 => exact once
    case h_2 =>
      split
      case h_1 => exact once
      case h_2 map inserted =>
        split
        · rw [claimLayout_zlist]
          exact once
        · exact once

theorem once_pool : (cpHandlePool c i req.obj req.opcode req.args).1.zlist.Nodup := by
  unfold cpHandlePool
  split
  case h_1 => exact once
  case h_2 p found =>
    split
    case h_1 =>
      dsimp only
      split
      · exact once
      · split
        · exact once
        · split <;> exact once
    case h_2 => exact once
    case h_3 =>
      have same : (releaseBuffers c i req.obj (List.finRange cpMaxSurfaces)).zlist = c.zlist :=
        releaseBuffers_zlist _ _
      have kept : (releaseBuffers c i req.obj (List.finRange cpMaxSurfaces)).zlist.Nodup := by
        rw [same]
        exact once
      exact kept
    case h_4 => exact once

theorem once_request : (dispatchRequest c i req).1.zlist.Nodup := by
  unfold dispatchRequest
  dsimp only
  split
  case isTrue opcode => exact once_surface once
  case isFalse =>
    split
    case h_1 =>
      unfold cpHandleDisplay
      split
      · exact (addCallback_zlist (c := c) _ _) ▸ once
      · dsimp only
        split <;> exact once
      · exact once
    case h_2 => exact once_registry once
    case h_3 => exact once_compositor once
    case h_4 =>
      unfold cpHandleShm
      dsimp only
      split
      · split
        · exact once
        · split <;> exact once
      · exact once
    case h_5 => exact once_pool once
    case h_6 =>
      unfold cpHandleBuffer
      split
      · exact once
      · split <;> exact once
    case h_7 => exact once_surface once
    case h_8 =>
      unfold cpHandleRegion
      split
      · exact once
      · dsimp only
        split <;> exact once
    case h_9 =>
      unfold cpHandleSeat
      split <;> exact once
    case h_10 => exact once

end

theorem once_of_reachable (reachable : Reachable c) : c.zlist.Nodup := by
  obtain ⟨memory, actions, run⟩ := reachable
  refine run.invariant (fun c => c.zlist.Nodup) (fun c action d once transition => ?_) nodup_nil
  cases transition with
  | attach =>
    unfold cpCompositorAttachClient
    split <;> exact once
  | setWmPid =>
    unfold cpCompositorSetWmPid
    dsimp only
    split
    · exact once
    · split <;> exact once
  | request active => exact once_request once
  | frame =>
    exact (fireCallbacks_zlist { c with frameDirty := false } (List.finRange cpMaxSurfaces)) ▸ once
  | reap =>
    exact coplandReapDeadClients_induction (fun d => d.zlist.Nodup) c _ once fun d i once _ =>
      (@reapSurfaces_zlist d (d.clients i).clientId false _ once (nodup_finRange cpMaxSurfaces)).1

end Once

/-- A record after the pass: none of a dead client is left, and those of the others are as they
were. -/
def RecordsReaped {α : Type} {size : Nat} (objId clientId : α → Nat) (c : Compositor)
    (alive : List Nat)
    (table next : Fin size → α) : Prop :=
  ∀ k, ((∃ i, c.Dead alive i ∧ (c.clients i).clientId = clientId (table k)) → objId (next k) = 0) ∧
    ((¬∃ i, c.Dead alive i ∧ (c.clients i).clientId = clientId (table k)) → next k = table k)

/-- The state behind a pass; the stacking order keeps its order. -/
structure Reaped (c : Compositor) (alive : List Nat) (next : Compositor) : Prop where
  surfaces : RecordsReaped SurfaceState.objId SurfaceState.clientId c alive c.surfaces next.surfaces
  pools : RecordsReaped PoolState.objId PoolState.clientId c alive c.pools next.pools
  buffers : RecordsReaped BufferState.objId BufferState.clientId c alive c.buffers next.buffers
  callbacks :
      RecordsReaped CallbackState.objId CallbackState.clientId c alive c.callbacks next.callbacks
  regions : RecordsReaped RegionState.objId RegionState.clientId c alive c.regions next.regions
  clients : ∀ i, ¬c.Dead alive i → next.clients i = c.clients i
  order : next.zlist.Sublist c.zlist
  stack : ∀ k, k ∈ next.zlist ↔ k ∈ c.zlist ∧ ¬∃ i, c.Removes alive i k
  dirty : (∃ i k, c.Removes alive i k) → next.frameDirty = true
  pending : c.frameDirty = true → next.frameDmg.Contains c.frameDmg
  removed : ∀ i k, c.Removes alive i k → next.frameDmg.Contains (c.surfaces k).box

/-- The last dead client that has a surface. -/
def Compositor.LastRemoved (c : Compositor) (alive : List Nat) (last : Fin cpMaxClients) : Prop :=
  (∃ k, c.Removes alive last k) ∧ ∀ i k, c.Removes alive i k → i ≤ last

/-- The pixels between the outermost edges of the surfaces of a client. -/
def Compositor.Spans (c : Compositor) (clientId : Nat) (px py : Int) : Prop :=
  c.Hull (List.finRange cpMaxSurfaces) clientId none px py

/-- The damage and all surfaces that go lie between the edges of the last client's. -/
def DamageWithinLast (c : Compositor) (alive : List Nat) : Prop :=
  ∀ last, c.LastRemoved alive last →
    (c.frameDirty = true → ∀ px py, c.frameDmg.Has px py →
      c.Spans (c.clients last).clientId px py) ∧
      ∀ i k, c.Removes alive i k → ∀ px py, (c.surfaces k).box.Has px py →
        c.Spans (c.clients last).clientId px py

theorem apart_of_wired (wired : Wired c.tables) : c.Apart alive := by
  intro i j dead dead' same
  have left := wired.ids i dead.2.1
  have right := wired.ids j dead'.2.1
  have equal : (i : Nat) + 1 = j + 1 := left.symm.trans (same.trans right)
  exact Fin.ext (by omega)

theorem recordsReaped {α : Type} {size : Nat} {objId clientId : α → Nat} (clear : α → α)
    (table : Compositor → Fin size → α) (cleared : ∀ a, objId (clear a) = 0)
    (kept : ∀ a, clientId (clear a) = clientId a) (twice : ∀ a, clear (clear a) = clear a)
    (step : ∀ c i k, table (reapClient c i) k =
      if clientId (table c k) = (c.clients i).clientId then clear (table c k) else table c k) :
    RecordsReaped objId clientId c alive (table c) (table (coplandReapDeadClients c alive)) := by
  intro k
  rw [coplandReapDeadClients_eq]
  obtain ⟨goes, stays⟩ :=
    @reapPass_record c alive (List.finRange cpMaxClients) α (fun c => table c k) clientId clear kept
    twice (fun c i => step c i k) (nodup_finRange cpMaxClients)
  constructor
  · rintro ⟨i, dead, owner⟩
    exact (congrArg objId (goes ⟨i, mem_finRange i, dead, owner⟩)).trans (cleared _)
  · exact fun none_ => stays fun ⟨i, _, dead, owner⟩ => none_ ⟨i, dead, owner⟩

theorem exists_lastRemoved (some_ : ∃ i k, c.Removes alive i k) :
    ∃ last, c.LastRemoved alive last := by
  classical
  have nonempty : (Finset.univ.filter fun i => ∃ k, c.Removes alive i k).Nonempty := by
    obtain ⟨i, k, removes⟩ := some_
    exact ⟨i, by simpa using ⟨k, removes⟩⟩
  obtain ⟨last, isLast, greatest⟩ := Finset.exists_max_image _ id nonempty
  refine ⟨last, (Finset.mem_filter.mp isLast).2, fun i k removes => ?_⟩
  exact greatest i (by simpa using ⟨k, removes⟩)

theorem reap_damage (apart : c.Apart alive) {last : Fin cpMaxClients}
    (isLast : c.LastRemoved alive last) (px py : Int) :
    (coplandReapDeadClients c alive).frameDmg.Has px py ↔
    c.Spans (c.clients last).clientId px py := by
  obtain ⟨before, after, isSplit⟩ := append_of_mem (mem_finRange last)
  have distinct := nodup_finRange cpMaxClients
  have increasing : (List.finRange cpMaxClients).Pairwise (· < ·) :=
    pairwise_lt_finRange cpMaxClients
  rw [isSplit] at distinct increasing
  have isPass : coplandReapDeadClients c alive = reapPass alive (before ++ last :: after) c := by
    rw [← isSplit]
    exact coplandReapDeadClients_eq
  rw [isPass]
  refine reapPass_damage apart distinct isLast.1 (fun i member k removes => ?_) px py
  have above := (pairwise_cons.mp (pairwise_append.mp increasing).2.1).1 i member
  exact absurd (isLast.2 i k removes) (Fin.not_le.mpr above)

/-- The pass leaves what it should exactly when the damage lies within the last client's
surfaces. -/
theorem reaped_iff (c : Compositor) (alive : List Nat) (reachable : Reachable c) :
    Reaped c alive (coplandReapDeadClients c alive) ↔ DamageWithinLast c alive := by
  have wired := wired_of_reachable reachable
  have apart : c.Apart alive := apart_of_wired wired
  constructor
  · intro reaped last isLast
    constructor
    · intro dirty px py has
      exact (reap_damage apart isLast px py).mp (reaped.pending dirty px py has)
    · intro i k removes px py has
      exact (reap_damage apart isLast px py).mp (reaped.removed i k removes px py has)
  · intro within
    obtain ⟨order, stack⟩ :=
      @reapPass_zlist c alive _ apart (once_of_reachable reachable) (nodup_finRange cpMaxClients)
    rw [← coplandReapDeadClients_eq] at order
    simp only [← coplandReapDeadClients_eq] at stack
    have everyone : ∀ {holds : Fin cpMaxClients → Prop},
        (∃ i ∈ List.finRange cpMaxClients, holds i) ↔ ∃ i, holds i := by
      intro holds
      simp
    constructor
    case surfaces =>
      exact recordsReaped (fun s : SurfaceState => { s with objId := 0 }) Compositor.surfaces
        (fun _ => rfl) (fun _ => rfl)
        (fun _ => rfl) fun c i k => reapClient_surfaces
    case pools =>
      exact recordsReaped (fun p : PoolState => { p with objId := 0 }) Compositor.pools
        (fun _ => rfl) (fun _ => rfl)
        (fun _ => rfl) fun c i k => congrFun (congrArg Tables.pools (reapClient_tables c i)) k
    case buffers =>
      exact recordsReaped (fun b : BufferState => { b with objId := 0 }) Compositor.buffers
        (fun _ => rfl) (fun _ => rfl)
        (fun _ => rfl) fun c i k => congrFun (congrArg Tables.buffers (reapClient_tables c i)) k
    case callbacks =>
      exact recordsReaped (fun cb : CallbackState => { cb with objId := 0 }) Compositor.callbacks
        (fun _ => rfl) (fun _ => rfl)
        (fun _ => rfl) fun c i k => reapClient_callbacks
    case regions =>
      exact recordsReaped (fun rg : RegionState => { rg with objId := 0 }) Compositor.regions
        (fun _ => rfl) (fun _ => rfl)
        (fun _ => rfl) fun c i k => congrFun (congrArg Tables.regions (reapClient_tables c i)) k
    case clients =>
      rw [coplandReapDeadClients_eq]
      exact fun i live => reapPass_clients live
    case order => exact order
    case stack => exact fun k => (stack k).trans (by rw [everyone])
    case dirty =>
      rintro ⟨i, k, removes⟩
      rw [coplandReapDeadClients_eq]
      exact reapPass_dirty apart (nodup_finRange cpMaxClients)
        (.inr ⟨i, mem_finRange i, k, removes⟩)
    case pending =>
      intro dirty
      by_cases some_ : ∃ i k, c.Removes alive i k
      · obtain ⟨last, isLast⟩ := exists_lastRemoved some_
        exact fun px py has =>
          (reap_damage apart isLast px py).mpr ((within last isLast).1 dirty px py has)
      · have same : (coplandReapDeadClients c alive).frameDmg = c.frameDmg := by
          rw [coplandReapDeadClients_eq]
          exact reapPass_damage_same apart (nodup_finRange cpMaxClients) fun i _ k removes =>
            some_ ⟨i, k, removes⟩
        rw [same]
        exact fun px py has => has
    case removed =>
      intro i k removes px py has
      obtain ⟨last, isLast⟩ := exists_lastRemoved ⟨i, k, removes⟩
      exact (reap_damage apart isLast px py).mpr ((within last isLast).2 i k removes px py has)

instance (c : Compositor) (alive : List Nat) (i : Fin cpMaxClients) : Decidable (c.Dead alive i) :=
  inferInstanceAs (Decidable (_ ∧ _))

instance (c : Compositor) (alive : List Nat) (i : Fin cpMaxClients) (k : Fin cpMaxSurfaces) :
    Decidable (c.Removes alive i k) :=
  inferInstanceAs (Decidable (_ ∧ _))

instance (box : Box) (px py : Int) : Decidable (box.Has px py) :=
  inferInstanceAs (Decidable ((_ ∧ _) ∧ _))

theorem damageWithinLast_single (clean : c.frameDirty = false)
    (single : ∀ i j, ∀ k l, c.Removes alive i k → c.Removes alive j l → i = j) :
    DamageWithinLast c alive := by
  rintro last ⟨⟨k, removes⟩, -⟩
  refine ⟨fun dirty => absurd dirty (by simp [clean]), fun i l removes' px py has => ?_⟩
  obtain rfl := single i last l k removes' removes
  have owned : c.Owned (List.finRange cpMaxSurfaces) (c.clients i).clientId l :=
    owned_finRange.mpr removes'.2
  exact ⟨⟨.inr ⟨l, owned, has.1.1⟩, .inr ⟨l, owned, has.1.2⟩⟩, .inr ⟨l, owned, has.2.1⟩,
    .inr ⟨l, owned, has.2.2⟩⟩

/-- The second process is alive and the first is not. -/
theorem reaped_first : Reaped (cpCompositorFrame sharedBufferId).1 [200]
    (coplandReapDeadClients (cpCompositorFrame sharedBufferId).1 [200]) := by
  refine (reaped_iff _ _ (reachable_sharedBufferId.step .frame)).mpr ?_
  exact damageWithinLast_single (by decide +kernel) (by decide +kernel)

/-- The second client has a surface that shows nothing, and the first frame is still to come. -/
def frameToCome : Compositor := serve sharedBufferId [(1, ⟨2, 0, [4, 3]⟩), (1, ⟨3, 0, [8]⟩)]

/-- The second client exits, and the damage of the first one is lost. -/
theorem damage_lost_in_pass :
    Reachable frameToCome ∧
    ¬Reaped frameToCome [100] (coplandReapDeadClients frameToCome [100]) := by
  refine ⟨reachable_serve reachable_sharedBufferId (by decide +kernel), fun reaped => ?_⟩
  have lost := reaped.pending (by decide +kernel) 0 0 (by decide +kernel)
  revert lost
  decide +kernel

end M4KK1.Copland

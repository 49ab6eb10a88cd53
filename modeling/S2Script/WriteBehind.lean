import Mathlib

/-! Write-behind buffering. Accepted writes carry growing revisions; a buffer holds
pieces, each standing for a range of writes of one key, and an acknowledgement settles
every write of its key up to a revision. -/
namespace S2Script.WriteBehind

variable {K V : Type}

structure Write (K V : Type) where
  key : K
  value : V
  revision : Int
  deriving DecidableEq

/-- What was accepted and what was acknowledged, in order. -/
structure Ledger (K V : Type) where
  writes : List (Write K V) := []
  acknowledged : List (K × Int) := []

namespace Ledger

/-- A write is settled once one at least as new of its key was acknowledged. -/
def Settled (ledger : Ledger K V) (key : K) (revision : Int) : Prop :=
  ∃ upto, (key,upto) ∈ ledger.acknowledged ∧ revision ≤ upto

/-- The newest write of its key. -/
def Last (ledger : Ledger K V) (w : Write K V) : Prop :=
  w ∈ ledger.writes ∧ ∀ v ∈ ledger.writes, v.key = w.key → v.revision ≤ w.revision

def accept (ledger : Ledger K V) (w : Write K V) : Ledger K V := { ledger with writes := ledger.writes ++ [w] }

def acknowledge (ledger : Ledger K V) (key : K) (upto : Int) : Ledger K V :=
  { ledger with acknowledged := ledger.acknowledged ++ [(key,upto)] }

@[simp] theorem settled_accept (ledger : Ledger K V) (w : Write K V) (key : K) (revision : Int) :
    (ledger.accept w).Settled key revision ↔ ledger.Settled key revision := Iff.rfl

theorem settled_acknowledge (ledger : Ledger K V) (key other : K) (upto revision : Int) :
    (ledger.acknowledge key upto).Settled other revision ↔
      ledger.Settled other revision ∨ other = key ∧ revision ≤ upto := by
  simp only [Settled,acknowledge,List.mem_append,List.mem_singleton,Prod.mk.injEq]
  constructor
  · rintro ⟨u,known | ⟨rfl,rfl⟩,le⟩
    · exact .inl ⟨u,known,le⟩
    · exact .inr ⟨rfl,le⟩
  · rintro (⟨u,known,le⟩ | ⟨rfl,le⟩)
    · exact ⟨u,.inl known,le⟩
    · exact ⟨upto,.inr ⟨rfl,rfl⟩,le⟩

theorem Settled.le {ledger : Ledger K V} {key : K} {revision earlier : Int} (settled : ledger.Settled key revision)
    (le : earlier ≤ revision) : ledger.Settled key earlier := by
  obtain ⟨upto,known,bound⟩ := settled
  exact ⟨upto,known,le.trans bound⟩

end Ledger

/-- A value with the range of revisions it stands for. -/
structure Piece (V : Type) where
  value : V
  revision : Int
  coversFrom : Int

/-- The pieces a buffer holds under each key, newest first, keep the ledger: each is an
accepted value, none covers a settled write, and every unsettled write is covered. -/
structure Keeps (ledger : Ledger K V) (held : K → List (Piece V)) : Prop where
  ordered : ledger.writes.Pairwise fun early late => early.revision < late.revision
  answered : ∀ key upto, (key,upto) ∈ ledger.acknowledged → ∃ w ∈ ledger.writes, w.key = key ∧ w.revision = upto
  written : ∀ key, ∀ piece ∈ held key, (⟨key,piece.value,piece.revision⟩ : Write K V) ∈ ledger.writes
  begins : ∀ key, ∀ piece ∈ held key, ∃ w ∈ ledger.writes, w.key = key ∧ w.revision = piece.coversFrom
  owed : ∀ key, ∀ piece ∈ held key, ¬ledger.Settled key piece.coversFrom
  forward : ∀ key, ∀ piece ∈ held key, piece.coversFrom ≤ piece.revision
  apart : ∀ key, (held key).Pairwise fun newer older => older.revision < newer.coversFrom
  covers : ∀ w ∈ ledger.writes, ¬ledger.Settled w.key w.revision →
    ∃ piece ∈ held w.key, piece.coversFrom ≤ w.revision ∧ w.revision ≤ piece.revision

namespace Keeps

variable {ledger : Ledger K V} {held changed : K → List (Piece V)}

theorem initial : Keeps (K := K) (V := V) {} fun _ => [] where
  ordered := .nil
  answered _ _ known := nomatch known
  written _ _ member := nomatch member
  begins _ _ member := nomatch member
  owed _ _ member := nomatch member
  forward _ _ member := nomatch member
  apart _ := .nil
  covers _ member := nomatch member

/-- Two writes of one revision are the same write. -/
theorem unique (keeps : Keeps ledger held) {v w : Write K V} (vIn : v ∈ ledger.writes) (wIn : w ∈ ledger.writes)
    (same : v.revision = w.revision) : v = w := by
  by_contra differ
  have symmetric : Std.Symm fun v w : Write K V => v.revision ≠ w.revision := ⟨fun _ _ ne => ne.symm⟩
  have either : ledger.writes.Pairwise fun v w => v.revision ≠ w.revision := keeps.ordered.imp Int.ne_of_lt
  exact either.forall vIn wIn differ same

/-- A fence is reached exactly when no piece of the key begins at or before it. -/
theorem reached_iff (keeps : Keeps ledger held) (key : K) (fence : Int) :
    (∀ piece ∈ held key, fence < piece.coversFrom) ↔
      ∀ w ∈ ledger.writes, w.key = key → w.revision ≤ fence → ledger.Settled w.key w.revision := by
  constructor
  · rintro beyond w member rfl le
    by_contra unsettled
    obtain ⟨piece,here,start,_⟩ := keeps.covers w member unsettled
    have := beyond piece here
    omega
  · intro settled piece here
    by_contra early
    obtain ⟨w,member,rfl,same⟩ := keeps.begins key piece here
    have done := settled w member rfl (by omega)
    exact keeps.owed _ piece here (same ▸ done)

/-- The newest write of a key is held until it is settled. -/
theorem last_held (keeps : Keeps ledger held) {w : Write K V} (last : ledger.Last w)
    (unsettled : ¬ledger.Settled w.key w.revision) :
    ∃ piece ∈ held w.key, piece.revision = w.revision ∧ piece.value = w.value := by
  obtain ⟨piece,here,_,upto⟩ := keeps.covers w last.1 unsettled
  have written := keeps.written _ piece here
  have newest := last.2 _ written rfl
  have same := keeps.unique written last.1 (Int.le_antisymm newest upto)
  exact ⟨piece,here,congrArg Write.revision same,congrArg Write.value same⟩

/-- With nothing held for a key, each of its writes is settled. -/
theorem settled_of_empty (keeps : Keeps ledger held) {w : Write K V} (member : w ∈ ledger.writes)
    (empty : held w.key = []) : ledger.Settled w.key w.revision := by
  by_contra unsettled
  obtain ⟨piece,here,_⟩ := keeps.covers w member unsettled
  rw [empty] at here
  exact nomatch here

/-- A piece that begins no later than any other of a group of keys begins at the oldest
unsettled write of the group. -/
theorem oldest (keeps : Keeps ledger held) (group : K → Prop) {start : Int}
    (first : ∀ key, group key → ∀ piece ∈ held key, start ≤ piece.coversFrom) {w : Write K V}
    (member : w ∈ ledger.writes) (inside : group w.key) (unsettled : ¬ledger.Settled w.key w.revision) :
    start ≤ w.revision := by
  obtain ⟨piece,here,le,_⟩ := keeps.covers w member unsettled
  exact (first _ inside piece here).trans le

/-- A new write enters at the front, in place of the piece it replaces. -/
theorem accept (keeps : Keeps ledger held) {key : K} {value : V} {revision : Int} (replaced : Option (Piece V))
    (rest : List (Piece V)) (above : ∀ w ∈ ledger.writes, w.revision < revision)
    (before : held key = replaced.toList ++ rest)
    (after : changed key = ⟨value,revision,(replaced.map Piece.coversFrom).getD revision⟩ :: rest)
    (others : ∀ other, other ≠ key → changed other = held other) :
    Keeps (ledger.accept ⟨key,value,revision⟩) changed := by
  have unsettledAbove : ¬ledger.Settled key revision := by
    rintro ⟨upto,known,le⟩
    obtain ⟨w,member,_,same⟩ := keeps.answered key upto known
    have := above w member
    omega
  have restHeld : ∀ piece ∈ rest, piece ∈ held key := fun piece member => before ▸ List.mem_append_right _ member
  have startLe : (replaced.map Piece.coversFrom).getD revision ≤ revision := by
    cases replaced with
    | none => exact Int.le_refl revision
    | some old =>
      have oldHeld : old ∈ held key := before ▸ List.mem_append_left _ (List.mem_singleton.mpr rfl)
      have written := above _ (keeps.written key old oldHeld)
      have := keeps.forward key old oldHeld
      simp only [Option.map_some,Option.getD_some]
      simp only at written
      omega
  have each : ∀ other, ∀ piece ∈ changed other, (other = key ∧
      piece = ⟨value,revision,(replaced.map Piece.coversFrom).getD revision⟩) ∨ piece ∈ held other := by
    intro other piece member
    by_cases same : other = key
    · subst same
      rw [after] at member
      rcases List.mem_cons.mp member with new | old
      · exact .inl ⟨rfl,new⟩
      · exact .inr (restHeld piece old)
    · exact .inr (others other same ▸ member)
  constructor
  · exact List.pairwise_append.mpr ⟨keeps.ordered,List.pairwise_singleton _ _,fun w member v new => by
      rw [List.mem_singleton.mp new]
      exact above w member⟩
  · intro other upto known
    obtain ⟨w,member,same⟩ := keeps.answered other upto known
    exact ⟨w,List.mem_append_left _ member,same⟩
  · intro other piece member
    rcases each other piece member with ⟨rfl,rfl⟩ | old
    · exact List.mem_append_right _ (List.mem_singleton.mpr rfl)
    · exact List.mem_append_left _ (keeps.written other piece old)
  · intro other piece member
    rcases each other piece member with ⟨rfl,rfl⟩ | old
    · cases replaced with
      | none => exact ⟨_,List.mem_append_right _ (List.mem_singleton.mpr rfl),rfl,rfl⟩
      | some old =>
        obtain ⟨w,earlier,same⟩ := keeps.begins other old (before ▸ List.mem_append_left _ (List.mem_singleton.mpr rfl))
        exact ⟨w,List.mem_append_left _ earlier,same⟩
    · obtain ⟨w,earlier,same⟩ := keeps.begins other piece old
      exact ⟨w,List.mem_append_left _ earlier,same⟩
  · intro other piece member
    rw [Ledger.settled_accept]
    rcases each other piece member with ⟨rfl,rfl⟩ | old
    · cases replaced with
      | none => exact unsettledAbove
      | some old => exact keeps.owed other old (before ▸ List.mem_append_left _ (List.mem_singleton.mpr rfl))
    · exact keeps.owed other piece old
  · intro other piece member
    rcases each other piece member with ⟨rfl,rfl⟩ | old
    · exact startLe
    · exact keeps.forward other piece old
  · intro other
    by_cases same : other = key
    · subst same
      have kept := keeps.apart other
      rw [before] at kept
      rw [after]
      refine List.pairwise_cons.mpr ⟨fun older member => ?_,(List.pairwise_append.mp kept).2.1⟩
      cases replaced with
      | none => exact above _ (keeps.written other older (restHeld older member))
      | some old => exact (List.pairwise_cons.mp kept).1 older member
    · rw [others other same]
      exact keeps.apart other
  · intro w member unsettled
    rw [Ledger.settled_accept] at unsettled
    rcases List.mem_append.mp member with earlier | new
    · obtain ⟨piece,here,start,stop⟩ := keeps.covers w earlier unsettled
      by_cases same : w.key = key
      · rw [same,before] at here
        rw [same,after]
        rcases List.mem_append.mp here with old | inRest
        · -- the replaced piece's range is part of the new one's
          cases replaced with
          | none => exact nomatch old
          | some front =>
            rw [Option.toList_some,List.mem_singleton] at old
            subst old
            have := above w earlier
            exact ⟨_,List.mem_cons_self,start,by simp only; omega⟩
        · exact ⟨piece,List.mem_cons_of_mem _ inRest,start,stop⟩
      · exact ⟨piece,others _ same ▸ here,start,stop⟩
    · rw [List.mem_singleton] at new
      subst new
      simp only at *
      exact ⟨_,after ▸ List.mem_cons_self,startLe,Int.le_refl _⟩

/-- Acknowledging the oldest piece of a key settles its range. -/
theorem settle (keeps : Keeps ledger held) {key : K} (piece : Piece V) (newer : List (Piece V))
    (before : held key = newer ++ [piece]) (after : changed key = newer)
    (others : ∀ other, other ≠ key → changed other = held other) :
    Keeps (ledger.acknowledge key piece.revision) changed := by
  have pieceHeld : piece ∈ held key := before ▸ List.mem_append_right _ (List.mem_singleton.mpr rfl)
  have each : ∀ other, ∀ p ∈ changed other, p ∈ held other ∧ (other = key → piece.revision < p.coversFrom) := by
    intro other p member
    by_cases same : other = key
    · subst same
      rw [after] at member
      have kept := keeps.apart other
      rw [before] at kept
      exact ⟨before ▸ List.mem_append_left _ member,fun _ =>
        (List.pairwise_append.mp kept).2.2 p member piece (List.mem_singleton.mpr rfl)⟩
    · exact ⟨others other same ▸ member,fun equal => absurd equal same⟩
  constructor
  · exact keeps.ordered
  · intro other upto known
    rcases List.mem_append.mp known with old | new
    · exact keeps.answered other upto old
    · obtain ⟨rfl,rfl⟩ := Prod.mk.inj (List.mem_singleton.mp new)
      exact ⟨_,keeps.written _ piece pieceHeld,rfl,rfl⟩
  · exact fun other p member => keeps.written other p (each other p member).1
  · exact fun other p member => keeps.begins other p (each other p member).1
  · intro other p member
    rw [Ledger.settled_acknowledge]
    rintro (settled | ⟨same,le⟩)
    · exact keeps.owed other p (each other p member).1 settled
    · have := (each other p member).2 same
      omega
  · exact fun other p member => keeps.forward other p (each other p member).1
  · intro other
    by_cases same : other = key
    · subst same
      have kept := keeps.apart other
      rw [before] at kept
      rw [after]
      exact (List.pairwise_append.mp kept).1
    · rw [others other same]
      exact keeps.apart other
  · intro w member unsettled
    rw [Ledger.settled_acknowledge,not_or] at unsettled
    obtain ⟨p,here,start,stop⟩ := keeps.covers w member unsettled.1
    by_cases same : w.key = key
    · rw [same,before] at here
      rcases List.mem_append.mp here with inNewer | this
      · exact ⟨p,same ▸ after ▸ inNewer,start,stop⟩
      · rw [List.mem_singleton.mp this] at stop
        exact absurd ⟨same,stop⟩ unsettled.2
    · exact ⟨p,others _ same ▸ here,start,stop⟩

/-- Giving a piece up to the newer one of its key widens that one; any number of keys may
do so at once. -/
theorem merge (keeps : Keeps ledger held)
    (merged : ∀ key, changed key = held key ∨ ∃ newer older, held key = [newer,older] ∧
      changed key = [{ newer with coversFrom := min newer.coversFrom older.coversFrom }]) : Keeps ledger changed := by
  -- the newer piece begins where the older one did
  have widened : ∀ {key newer older}, held key = [newer,older] →
      older.revision < newer.coversFrom ∧ older.coversFrom ≤ older.revision ∧ newer.coversFrom ≤ newer.revision ∧
      min newer.coversFrom older.coversFrom = older.coversFrom := by
    intro key newer older before
    have kept := keeps.apart key
    rw [before] at kept
    have gap := (List.pairwise_cons.mp kept).1 older (List.mem_singleton.mpr rfl)
    have olderForward := keeps.forward key older (by simp [before])
    have newerForward := keeps.forward key newer (by simp [before])
    omega
  have each : ∀ key, ∀ p ∈ changed key, p ∈ held key ∨
      ∃ newer older, held key = [newer,older] ∧ p = { newer with coversFrom := older.coversFrom } := by
    intro key p member
    rcases merged key with same | ⟨newer,older,before,after⟩
    · exact .inl (same ▸ member)
    · rw [after,(widened before).2.2.2,List.mem_singleton] at member
      exact .inr ⟨newer,older,before,member⟩
  constructor
  · exact keeps.ordered
  · exact keeps.answered
  · intro key p member
    rcases each key p member with old | ⟨newer,older,before,rfl⟩
    · exact keeps.written key p old
    · exact keeps.written key newer (by simp [before])
  · intro key p member
    rcases each key p member with old | ⟨newer,older,before,rfl⟩
    · exact keeps.begins key p old
    · exact keeps.begins key older (by simp [before])
  · intro key p member
    rcases each key p member with old | ⟨newer,older,before,rfl⟩
    · exact keeps.owed key p old
    · exact keeps.owed key older (by simp [before])
  · intro key p member
    rcases each key p member with old | ⟨newer,older,before,rfl⟩
    · exact keeps.forward key p old
    · have := widened before
      simp only
      omega
  · intro key
    rcases merged key with same | ⟨newer,older,before,after⟩
    · rw [same]
      exact keeps.apart key
    · rw [after]
      exact List.pairwise_singleton _ _
  · intro w member unsettled
    obtain ⟨p,here,start,stop⟩ := keeps.covers w member unsettled
    rcases merged w.key with same | ⟨newer,older,before,after⟩
    · exact ⟨p,same ▸ here,start,stop⟩
    · have wide := widened before
      refine ⟨_,after ▸ List.mem_singleton.mpr rfl,?_⟩
      rw [before] at here
      have either : p = newer ∨ p = older := by simpa using here
      rcases either with rfl | rfl
      · simp only
        omega
      · simp only
        omega

end Keeps

/-- What a store keeps under a key. -/
structure Cell (V : Type) where
  value : V
  revision : Int

/-- A store that takes an incoming cell only when it is newer. -/
def newer (stored : Option (Cell V)) (incoming : Cell V) : Cell V :=
  match stored with
  | none => incoming
  | some old => if old.revision < incoming.revision then incoming else old

theorem newer_cases (stored : Option (Cell V)) (incoming : Cell V) :
    newer stored incoming = incoming ∨ stored = some (newer stored incoming) := by
  cases stored with
  | none => exact .inl rfl
  | some old =>
    by_cases later : old.revision < incoming.revision
    · exact .inl (by simp [newer,later])
    · exact .inr (by simp [newer,later])

theorem incoming_le_newer (stored : Option (Cell V)) (incoming : Cell V) :
    incoming.revision ≤ (newer stored incoming).revision := by
  cases stored with
  | none => exact Int.le_refl _
  | some old =>
    by_cases later : old.revision < incoming.revision
    · simp [newer,later]
    · rw [newer,if_neg later]
      exact Int.not_lt.mp later

theorem stored_le_newer (old incoming : Cell V) : old.revision ≤ (newer (some old) incoming).revision := by
  by_cases later : old.revision < incoming.revision
  · simpa [newer,later] using Int.le_of_lt later
  · simp [newer,later]

/-- A store follows a ledger: it keeps accepted writes only, and at least what was
acknowledged. -/
structure Follows (ledger : Ledger K V) (stored : K → Option (Cell V)) : Prop where
  written : ∀ key cell, stored key = some cell → (⟨key,cell.value,cell.revision⟩ : Write K V) ∈ ledger.writes
  kept : ∀ key upto, (key,upto) ∈ ledger.acknowledged → ∃ cell, stored key = some cell ∧ upto ≤ cell.revision

namespace Follows

variable {ledger : Ledger K V} {stored changed : K → Option (Cell V)}

theorem initial (empty : ∀ key, stored key = none) : Follows {} stored where
  written key cell here := by
    rw [empty key] at here
    exact nomatch here
  kept _ _ known := nomatch known

theorem accept (follows : Follows ledger stored) (w : Write K V) : Follows (ledger.accept w) stored where
  written key cell here := List.mem_append_left _ (follows.written key cell here)
  kept := follows.kept

/-- An accepted write may reach the store at any time. -/
theorem write (follows : Follows ledger stored) {key : K} (cell : Cell V)
    (member : (⟨key,cell.value,cell.revision⟩ : Write K V) ∈ ledger.writes)
    (after : changed key = some (newer (stored key) cell))
    (others : ∀ other, other ≠ key → changed other = stored other) : Follows ledger changed where
  written other there here := by
    by_cases same : other = key
    · subst same
      rw [after] at here
      obtain rfl := Option.some.inj here
      rcases newer_cases (stored other) cell with new | old
      · rw [new]
        exact member
      · exact follows.written other _ old
    · exact follows.written other there (others other same ▸ here)
  kept other upto known := by
    obtain ⟨old,here,le⟩ := follows.kept other upto known
    by_cases same : other = key
    · subst same
      exact ⟨_,after,le.trans (here ▸ stored_le_newer old cell)⟩
    · exact ⟨old,(others other same).trans here,le⟩

/-- Only what the store has reached is acknowledged. -/
theorem acknowledge (follows : Follows ledger stored) {key : K} {cell : Cell V} {upto : Int}
    (here : stored key = some cell) (reached : upto ≤ cell.revision) :
    Follows (ledger.acknowledge key upto) stored where
  written := follows.written
  kept other bound known := by
    rcases List.mem_append.mp known with old | new
    · exact follows.kept other bound old
    · obtain ⟨rfl,rfl⟩ := Prod.mk.inj (List.mem_singleton.mp new)
      exact ⟨cell,here,reached⟩

/-- A settled write is in the store, or a later one of its key is. -/
theorem reached (follows : Follows ledger stored) {key : K} {revision : Int} (settled : ledger.Settled key revision) :
    ∃ cell, stored key = some cell ∧ revision ≤ cell.revision := by
  obtain ⟨upto,known,le⟩ := settled
  obtain ⟨cell,here,bound⟩ := follows.kept key upto known
  exact ⟨cell,here,le.trans bound⟩

/-- Once the newest write of a key is settled the store holds it. -/
theorem converged {held : K → List (Piece V)} (follows : Follows ledger stored) (keeps : Keeps ledger held)
    {w : Write K V} (last : ledger.Last w) (settled : ledger.Settled w.key w.revision) :
    stored w.key = some ⟨w.value,w.revision⟩ := by
  obtain ⟨cell,here,reached⟩ := follows.reached settled
  have written := follows.written _ _ here
  have newest := last.2 _ written rfl
  have same := keeps.unique written last.1 (Int.le_antisymm newest reached)
  rw [here,← congrArg Write.value same,← congrArg Write.revision same]

end Follows

end S2Script.WriteBehind

import S2Script.SurfaceLeases

/-! What the registry's operations do to its records. Suspension touches none of them;
a batch removal drops whole trees and hands back the ones that led their key. -/
namespace S2Script.SurfaceLeases

abbrev tokens (records : List Record) : List Nat := records.map Record.token

/-- Token equality is record equality. -/
abbrev Distinct (records : List Record) : Prop := (tokens records).Nodup

theorem Distinct.eq_of_token {records : List Record} (distinct : Distinct records)
    {first second : Record} (one : first ∈ records) (two : second ∈ records)
    (same : first.token = second.token) : first = second :=
  List.inj_on_of_nodup_map distinct one two same

theorem Distinct.subperm {records fewer : List Record} (distinct : Distinct records)
    (subperm : fewer.Subperm records) : Distinct fewer := by
  obtain ⟨middle,perm,sublist⟩ := subperm
  exact (perm.map _).nodup_iff.mp (distinct.sublist (sublist.map _))

def Record.rank (r : Record) : Int ×ₗ Nat := toLex (r.priority,r.token)

/-- The record outranks every other of its key. -/
def Leads (records : List Record) (r : Record) : Prop :=
  r ∈ records ∧ ∀ other ∈ records, other.key = r.key → other.rank ≤ r.rank

theorem winnerOf_eq_some_iff {records : List Record} (distinct : Distinct records) (key : Key)
    (r : Record) : winnerOf records key = some r ↔ r.key = key ∧ Leads records r := by
  rw [winnerOf,List.argmax_eq_some_iff]
  constructor
  · rintro ⟨member,above,_⟩
    have found : r ∈ records ∧ r.key = key := by simpa using member
    refine ⟨found.2,found.1,fun other inside same => above other ?_⟩
    simpa [found.2.symm] using ⟨inside,same⟩
  · rintro ⟨rfl,member,above⟩
    refine ⟨by simpa using member,?_,?_⟩
    · intro other inside
      have found : other ∈ records ∧ other.key = r.key := by simpa using inside
      exact above other found.1 found.2
    · intro other inside tie
      have found : other ∈ records ∧ other.key = r.key := by simpa using inside
      have equal : other.rank = r.rank := le_antisymm (above other found.1 found.2) tie
      have same : other.token = r.token := congrArg (fun rank => (ofLex rank).2) equal
      rw [distinct.eq_of_token found.1 member same]

/-- A leader keeps leading when others go. -/
theorem Leads.filter {records : List Record} {r : Record} (leads : Leads records r)
    {keep : Record → Bool} (kept : keep r = true) : Leads (records.filter keep) r :=
  ⟨List.mem_filter.mpr ⟨leads.1,kept⟩,
    fun other member => leads.2 other (List.mem_of_mem_filter member)⟩

namespace Registry

variable (r : Registry)

/-- The token wins the key in the registry. -/
theorem winner_eq_some_iff (distinct : Distinct r.records) (key : Key) (token : Nat) :
    r.winner key = some token ↔ ∃ x, x.key = key ∧ x.token = token ∧ Leads r.records x := by
  simp only [winner,Option.map_eq_some_iff,winnerOf_eq_some_iff distinct]
  constructor
  · rintro ⟨x,⟨same,leads⟩,named⟩
    exact ⟨x,same,named,leads⟩
  · rintro ⟨x,same,named,leads⟩
    exact ⟨x,⟨same,leads⟩,named⟩

theorem lookup_some {token : Nat} {l : Lease} (found : r.lookup token = some l) :
    l ∈ r.leases ∧ l.token = token :=
  ⟨List.mem_of_find?_eq_some found,by simpa using List.find?_some found⟩

theorem mem_records {l : Lease} (member : l ∈ r.leases) : l.toRecord ∈ r.records :=
  List.mem_map_of_mem member

theorem lookup_record (distinct : Distinct r.records) {x : Record} (member : x ∈ r.records) :
    ∃ l, r.lookup x.token = some l ∧ l.toRecord = x := by
  obtain ⟨l,inside,rfl⟩ := List.mem_map.mp member
  have some_lease : (r.lookup l.token).isSome := by
    rw [lookup,List.find?_isSome]
    exact ⟨l,inside,by simp⟩
  obtain ⟨found,lookup⟩ := Option.isSome_iff_exists.mp some_lease
  obtain ⟨present,named⟩ := r.lookup_some lookup
  exact ⟨found,lookup,distinct.eq_of_token (r.mem_records present) member named⟩

@[simp] theorem suspend_records (token : Nat) : (r.suspend token).1.records = r.records := by
  simp only [suspend,records,List.map_map]
  refine List.map_congr_left fun l _ => ?_
  simp only [Function.comp_apply]
  split <;> rfl

@[simp] theorem suspend_pending (token : Nat) : (r.suspend token).1.pending = r.pending := rfl

theorem suspended_record {token : Nat} {l : Lease} (suspended : (r.suspend token).2 = some l) :
    l.toRecord ∈ r.records ∧ l.token = token := by
  obtain ⟨found,lookup,rfl⟩ := Option.map_eq_some_iff.mp suspended
  obtain ⟨member,named⟩ := r.lookup_some lookup
  have record := r.mem_records member
  split
  · exact ⟨record,named⟩
  · exact ⟨record,named⟩

@[simp] theorem suspendWinner_records (key : Key) : (r.suspendWinner key).records = r.records := by
  unfold suspendWinner
  split
  · exact r.suspend_records _
  · rfl

@[simp] theorem suspendWinner_pending (key : Key) : (r.suspendWinner key).pending = r.pending := by
  unfold suspendWinner
  split <;> rfl

/-- Removing one token filters the records. -/
theorem remove_some {token : Nat} {rest : Registry} {removed : Lease} {won : Bool}
    (run : r.remove token = some (rest,removed,won)) :
    rest.records = r.records.filter (fun x => x.token ≠ token) ∧ rest.pending = r.pending ∧
      r.lookup token = some removed := by
  unfold remove at run
  cases found : r.lookup token with
  | none => simp [found] at run
  | some l =>
    simp only [found,Option.some.injEq,Prod.mk.injEq] at run
    obtain ⟨rfl,rfl,_⟩ := run
    have filtered : ({ r with leases := r.leases.filter (fun l => l.token ≠ token) } :
        Registry).records = r.records.filter (fun x => x.token ≠ token) := by
      simp [records,List.filter_map,Function.comp_def]
    refine ⟨?_,?_,rfl⟩
    · split
      · rw [suspendWinner_records,filtered]
      · exact filtered
    · split
      · exact suspendWinner_pending _ _
      · rfl

theorem remove_none {token : Nat} (run : r.remove token = none) : r.lookup token = none := by
  unfold remove at run
  cases found : r.lookup token with
  | none => rfl
  | some l => simp [found] at run

/-- What a sequence of removals leaves and hands back. -/
structure Removes (roots : List Nat) (rest : Registry) (gone : List Lease) : Prop where
  records : rest.records = r.records.filter (fun x => x.token ∉ roots)
  pending : rest.pending = r.pending
  removed : ∀ l ∈ gone, l.toRecord ∈ r.records ∧ l.token ∈ roots
  complete : ∀ x ∈ r.records, x.token ∈ roots → x ∈ gone.map Lease.toRecord
  size : rest.records.length + gone.length ≤ r.records.length

theorem removeEach_removes (roots : List Nat) (distinct : Distinct r.records) :
    r.Removes roots (removeEach roots r).1 (removeEach roots r).2 := by
  induction roots generalizing r with
  | nil => exact ⟨by simp [removeEach],rfl,by simp [removeEach],by simp,by simp [removeEach]⟩
  | cons token roots previous =>
    cases run : r.remove token with
    | none =>
      have absent : ∀ x ∈ r.records, x.token ≠ token := by
        intro x member same
        obtain ⟨l,found,_⟩ := r.lookup_record distinct member
        rw [same,r.remove_none run] at found
        cases found
      have inner := previous r distinct
      simp only [removeEach,run]
      refine ⟨?_,inner.pending,?_,?_,inner.size⟩
      · rw [inner.records]
        refine List.filter_congr fun x member => ?_
        simp [absent x member]
      · intro l member
        have facts := inner.removed l member
        exact ⟨facts.1,List.mem_cons_of_mem _ facts.2⟩
      · intro x member listed
        rcases List.mem_cons.mp listed with same | listed
        · exact absurd same (absent x member)
        · exact inner.complete x member listed
    | some step =>
      obtain ⟨rest,removed,won⟩ := step
      obtain ⟨kept,pending,found⟩ := r.remove_some run
      obtain ⟨present,named⟩ := r.lookup_some found
      have inner := previous rest (by
        rw [kept]
        exact distinct.sublist (List.filter_sublist.map _))
      simp only [removeEach,run]
      refine ⟨?_,inner.pending.trans pending,?_,?_,?_⟩
      · rw [inner.records,kept,List.filter_filter]
        refine List.filter_congr fun x _ => ?_
        simp [Bool.and_comm]
      · intro l member
        rcases List.mem_cons.mp member with rfl | member
        · exact ⟨r.mem_records present,by simp [named]⟩
        · have facts := inner.removed l member
          rw [kept] at facts
          exact ⟨List.mem_of_mem_filter facts.1,List.mem_cons_of_mem _ facts.2⟩
      · intro x member listed
        by_cases same : x.token = token
        · have equal : x = removed.toRecord :=
            distinct.eq_of_token member (r.mem_records present) (same.trans named.symm)
          exact List.mem_map.mpr ⟨removed,List.mem_cons_self,equal.symm⟩
        · have inside : x ∈ rest.records := by
            rw [kept]
            simpa using ⟨member,same⟩
          have listed : x.token ∈ roots := by simpa [same] using listed
          exact List.mem_map.mpr (by
            obtain ⟨l,out,equal⟩ := List.mem_map.mp (inner.complete x inside listed)
            exact ⟨l,List.mem_cons_of_mem _ out,equal⟩)
      · have shorter : rest.records.length < r.records.length := by
          rw [kept]
          refine List.length_filter_lt_length_iff_exists.mpr ⟨removed.toRecord,r.mem_records present,?_⟩
          simp [named]
        have size := inner.size
        simp only [List.length_cons]
        omega

end Registry

/-- The record is one of the roots or a child of one. -/
def doomed (roots : List Nat) (x : Record) : Bool :=
  x.token ∈ roots || x.parent.any (fun p => p.token ∈ roots)

/-- What a batch removal leaves and hands back: the trees go, and of them the
records that led their key are to be retired. -/
structure Fells (r : Registry) (roots : List Nat) (rest : Registry) (gone : List Lease) : Prop where
  records : rest.records = r.records.filter (fun x => !doomed roots x)
  pending : rest.pending = r.pending
  fallen : ∀ l ∈ gone, l.toRecord ∈ r.records ∧ doomed roots l.toRecord = true
  leaders : ∀ x, Leads r.records x → doomed roots x = true → x ∈ gone.map Lease.toRecord
  size : rest.records.length + gone.length ≤ r.records.length

theorem Registry.removeMany_fells (r : Registry) (roots : List Nat)
    (distinct : Distinct r.records) :
    Fells r roots (r.removeMany roots).1 (r.removeMany roots).2 := by
  unfold removeMany
  split
  next none =>
    obtain rfl : roots = [] := by simpa using none
    have spared : ∀ x, doomed [] x = false := by simp [doomed]
    exact ⟨by simp [spared],rfl,by simp,by simp [spared],by simp⟩
  next =>
  extract_lets trees wins winners rootLess ordered
  have removes := r.removeEach_removes ordered distinct
  generalize removeEach ordered r = run at removes ⊢
  obtain ⟨rest,removed⟩ := run
  -- a record's token is listed exactly when the record itself is doomed
  have listed : ∀ x ∈ r.records, (x.token ∈ ordered ↔ doomed roots x = true) := by
    intro x member
    rw [List.mem_insertionSort,List.mem_map]
    constructor
    · rintro ⟨l,inside,same⟩
      obtain ⟨present,fallen⟩ := List.mem_filter.mp inside
      rw [← distinct.eq_of_token (r.mem_records present) member same]
      exact fallen
    · intro fallen
      obtain ⟨l,present,rfl⟩ := List.mem_map.mp member
      exact ⟨l,List.mem_filter.mpr ⟨present,fallen⟩,rfl⟩
  refine ⟨?_,removes.pending,?_,?_,?_⟩
  · rw [removes.records]
    refine List.filter_congr fun x member => ?_
    simp [listed x member]
  · intro l member
    have facts := removes.removed l (List.mem_of_mem_filter member)
    exact ⟨facts.1,(listed _ facts.1).mp facts.2⟩
  · intro x leads fallen
    have token := (listed x leads.1).mpr fallen
    obtain ⟨l,out,rfl⟩ := List.mem_map.mp (removes.complete x leads.1 token)
    refine List.mem_map.mpr ⟨l,List.mem_filter.mpr ⟨out,?_⟩,rfl⟩
    obtain ⟨found,lookup,same⟩ := r.lookup_record distinct leads.1
    have won : r.winner l.key = some l.token :=
      (r.winner_eq_some_iff distinct _ _).mpr ⟨l.toRecord,rfl,rfl,leads⟩
    have key : found.key = l.key := congrArg Record.key same
    have wins_it : wins l.token = true := by simp [wins,lookup,key,won]
    simpa [winners,wins_it] using ((List.mem_insertionSort _).mp token)
  · have size : rest.records.length + removed.length ≤ r.records.length := removes.size
    have fewer := List.length_filter_le (fun l : Lease => l.token ∈ winners) removed
    simp only
    omega

end S2Script.SurfaceLeases

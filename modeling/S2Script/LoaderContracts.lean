import S2Script.LoaderFiles

/-! The contracts of a batch: the provider rounds end, at providers that are viable against what they
publish themselves, and reject only what drifts from it or toggles. -/
namespace S2Script.Loader

open LoaderWorker

section Rounds

variable (ordered : List (Path × Manifest)) (liveHash : String → Option String)

/-- The eligible providers that fit what the accepted ones publish. -/
def viable (eligible accepted : List Path) : List Path :=
  (ordered.filter fun entry =>
    entry.1 ∈ eligible && verifyCompiledAgainst entry.2 (providedHashes ordered accepted) liveHash).map Prod.fst

/-- What toggles between the states of a cycle. -/
def togglers (eligible : List Path) (states : List (List Path)) : List Path :=
  (ordered.map Prod.fst).filter fun path => states.any (path ∈ ·) && !(path ∈ eligible && states.all (path ∈ ·))

/-- A path toggles when some set of eligible providers runs into a cycle of rounds that has the path
in one state and not in another. -/
def Toggles (path : Path) : Prop :=
  ∃ eligible states first, (first :: states).IsChain (fun state next => next = viable ordered liveHash eligible state) ∧
    (first :: states).getLast? = some first ∧ path ∈ eligible ∧ (∃ state ∈ states, path ∈ state) ∧ ∃ state ∈ states, path ∉ state

variable {ordered liveHash}

theorem mem_viable (distinct : (ordered.map Prod.fst).Nodup) {eligible accepted : List Path} {entry : Path × Manifest}
    (listed : entry ∈ ordered) : entry.1 ∈ viable ordered liveHash eligible accepted ↔
      entry.1 ∈ eligible ∧ verifyCompiledAgainst entry.2 (providedHashes ordered accepted) liveHash = true := by
  rw [viable,List.mem_map]
  constructor
  · rintro ⟨other,member,same⟩
    obtain ⟨inOrdered,passes⟩ := List.mem_filter.mp member
    obtain rfl := List.inj_on_of_nodup_map distinct inOrdered listed same
    rw [Bool.and_eq_true,decide_eq_true_eq] at passes
    exact passes
  · rintro ⟨within,passes⟩
    exact ⟨entry,List.mem_filter.mpr ⟨listed,by rw [Bool.and_eq_true,decide_eq_true_eq]; exact ⟨within,passes⟩⟩,rfl⟩

theorem viable_sublist (eligible accepted : List Path) : (viable ordered liveHash eligible accepted).Sublist (ordered.map Prod.fst) :=
  List.filter_sublist.map _

theorem viable_subset (eligible accepted : List Path) : ∀ path ∈ viable ordered liveHash eligible accepted, path ∈ eligible := by
  intro path member
  obtain ⟨entry,found,rfl⟩ := List.mem_map.mp member
  have passes := (List.mem_filter.mp found).2
  rw [Bool.and_eq_true,decide_eq_true_eq] at passes
  exact passes.1

/-- Sublists of one list of distinct elements are equal when they have the same elements. -/
theorem sublist_ext {α : Type} {a b whole : List α} (distinct : whole.Nodup) (inA : a.Sublist whole) (inB : b.Sublist whole)
    (same : ∀ x, x ∈ a ↔ x ∈ b) : a = b := by
  classical
  have filtered : ∀ c : List α, c.Sublist whole → c = whole.filter (· ∈ c) := by
    intro c sub
    have within := sub.filter (· ∈ c)
    rw [List.filter_eq_self.mpr fun x member => decide_eq_true member] at within
    refine within.eq_of_length_le (List.Nodup.subperm (distinct.filter _) fun x member => ?_).length_le
    exact of_decide_eq_true (List.mem_filter.mp member).2
  rw [filtered a inA,filtered b inB]
  exact List.filter_congr fun x _ => by simp [same x]

/-- The rounds between two restarts: distinct states of eligible providers, each following from the one before. -/
structure Rounding (ordered : List (Path × Manifest)) (liveHash : String → Option String) (eligible : List Path)
    (states : List (List Path)) : Prop where
  chain : states.IsChain fun state next => next = viable ordered liveHash eligible state
  distinct : states.Nodup
  canonical : ∀ state ∈ states, state.Sublist (ordered.map Prod.fst) ∧ ∀ path ∈ state, path ∈ eligible

theorem Rounding.bounded {eligible : List Path} {states : List (List Path)} (rounding : Rounding ordered liveHash eligible states) :
    states.length ≤ 2 ^ ordered.length := by
  have inside : ∀ state ∈ states, state ∈ (ordered.map Prod.fst).sublists := fun state member =>
    List.mem_sublists.mpr (rounding.canonical state member).1
  have length := (List.Nodup.subperm rounding.distinct inside).length_le
  rwa [List.length_sublists,List.length_map] at length

/-- What the rounds end with: providers viable against what they publish, of those that were not
rejected as toggling. -/
structure StableProviders (ordered : List (Path × Manifest)) (liveHash : String → Option String) (eligible accepted cycle : List Path) : Prop where
  stable : ∃ kept : List Path, accepted = viable ordered liveHash kept accepted ∧ ∀ path, path ∈ kept ↔ path ∈ eligible ∧ path ∉ cycle
  toggles : ∀ path ∈ cycle, path ∈ eligible ∧ Toggles ordered liveHash path

/-- The loop of provider rounds, with the eligible and the accepted providers of each round: it stops at
a stable state, restarts without what toggles when a state comes again, and goes on otherwise. -/
inductive Loop (ordered : List (Path × Manifest)) (liveHash : String → Option String) :
    List (List Path × List Path) → List Path → List Path → List (List Path) → List Path → List Path × List Path → Prop
  | stops {eligible accepted history cycle} (stable : viable ordered liveHash eligible accepted = accepted) :
    Loop ordered liveHash [(eligible,accepted)] eligible accepted history cycle (accepted,cycle)
  | restarts {rounds eligible accepted history cycle first toggling result} (moves : viable ordered liveHash eligible accepted ≠ accepted)
    (found : (history ++ [accepted]).findIdx? (· == viable ordered liveHash eligible accepted) = some first)
    (toggles : togglers ordered eligible ((history ++ [accepted]).drop first ++ [viable ordered liveHash eligible accepted]) = toggling)
    (rest : Loop ordered liveHash rounds (eligible.filter (· ∉ toggling)) (eligible.filter (· ∉ toggling)) [] (cycle ++ toggling) result) :
    Loop ordered liveHash ((eligible,accepted) :: rounds) eligible accepted history cycle result
  | continues {rounds eligible accepted history cycle result} (moves : viable ordered liveHash eligible accepted ≠ accepted)
    (fresh : (history ++ [accepted]).findIdx? (· == viable ordered liveHash eligible accepted) = none)
    (rest : Loop ordered liveHash rounds eligible (viable ordered liveHash eligible accepted) (history ++ [accepted]) cycle result) :
    Loop ordered liveHash ((eligible,accepted) :: rounds) eligible accepted history cycle result

theorem Loop.unique {rounds others : List (List Path × List Path)} {eligible accepted : List Path} {history : List (List Path)}
    {cycle : List Path} {result other : List Path × List Path} (loop : Loop ordered liveHash rounds eligible accepted history cycle result)
    (also : Loop ordered liveHash others eligible accepted history cycle other) : others = rounds ∧ other = result := by
  induction loop generalizing others with
  | stops stable =>
    cases also with
    | stops => exact ⟨rfl,rfl⟩
    | restarts moves => exact absurd stable moves
    | continues moves => exact absurd stable moves
  | restarts moves found toggles _ ih =>
    cases also with
    | stops stable => exact absurd stable moves
    | restarts _ found' toggles' rest =>
      obtain rfl := Option.some.inj (found.symm.trans found')
      obtain rfl := toggles.symm.trans toggles'
      obtain ⟨rfl,rfl⟩ := ih rest
      exact ⟨rfl,rfl⟩
    | continues _ fresh => exact nomatch found.symm.trans fresh
  | continues moves fresh _ ih =>
    cases also with
    | stops stable => exact absurd stable moves
    | restarts _ found => exact nomatch found.symm.trans fresh
    | continues _ _ rest =>
      obtain ⟨rfl,rfl⟩ := ih rest
      exact ⟨rfl,rfl⟩

/-- Rounds until a restart or the end, in the worst case: all sets of providers, for each number of
eligible ones. -/
def roundsLeft (candidates eligible seen : Nat) : Nat := eligible * (2 ^ candidates + 1) + (2 ^ candidates - seen) + 1

theorem mem_togglers {eligible : List Path} {states : List (List Path)} {path : Path} :
    path ∈ togglers ordered eligible states ↔ path ∈ ordered.map Prod.fst ∧ (∃ state ∈ states, path ∈ state) ∧
      (path ∈ eligible → ∃ state ∈ states, path ∉ state) := by
  rw [togglers,List.mem_filter]
  simp only [Bool.and_eq_true,List.any_eq_true,decide_eq_true_eq,Bool.not_eq_true',Bool.and_eq_false_imp,List.all_eq_false]

/-- A state that comes again closes a cycle, and some provider is in one state of it and not in another. -/
theorem Rounding.toggling {history : List (List Path)} {within accepted : List Path} (distinct : (ordered.map Prod.fst).Nodup)
    (rounding : Rounding ordered liveHash within (history ++ [accepted])) {start : Nat}
    (found : (history ++ [accepted]).findIdx? (· == viable ordered liveHash within accepted) = some start)
    (moves : viable ordered liveHash within accepted ≠ accepted) :
    (∀ path ∈ togglers ordered within ((history ++ [accepted]).drop start ++ [viable ordered liveHash within accepted]),
      path ∈ within ∧ Toggles ordered liveHash path) ∧
      togglers ordered within ((history ++ [accepted]).drop start ++ [viable ordered liveHash within accepted]) ≠ [] := by
  obtain ⟨inside,same,_⟩ := List.findIdx?_eq_some_iff_getElem.mp found
  rw [beq_iff_eq] at same
  generalize nextIs : viable ordered liveHash within accepted = next at same moves ⊢
  have drops : (history ++ [accepted]).drop start = next :: (history ++ [accepted]).drop (start + 1) := by
    rw [← same]
    exact List.drop_eq_getElem_cons inside
  have canonical : next.Sublist (ordered.map Prod.fst) ∧ ∀ path ∈ next, path ∈ within := by
    rw [← nextIs]
    exact ⟨viable_sublist within accepted,viable_subset within accepted⟩
  have accepts : accepted ∈ (history ++ [accepted]).drop start := by
    have last : ((history ++ [accepted]).drop start).getLast? = some accepted := by
      rw [List.getLast?_drop,if_neg (by omega)]
      simp
    exact List.mem_of_getLast? last
  have states : ∀ state ∈ (history ++ [accepted]).drop start ++ [next], ∀ path ∈ state, path ∈ within := by
    intro state member path holds
    rcases List.mem_append.mp member with old | new
    · exact (rounding.canonical state (List.mem_of_mem_drop old)).2 path holds
    · exact canonical.2 path (List.mem_singleton.mp new ▸ holds)
  have chain : (next :: ((history ++ [accepted]).drop (start + 1) ++ [next])).IsChain
      fun state next => next = viable ordered liveHash within state := by
    rw [← List.cons_append,← drops]
    refine List.isChain_append.mpr ⟨rounding.chain.drop start,List.isChain_singleton _,?_⟩
    intro last isLast first isFirst
    rw [List.getLast?_drop,if_neg (by omega)] at isLast
    simp only [List.getLast?_append,List.getLast?_singleton,Option.some_or,Option.mem_some_iff,List.head?_cons] at isLast isFirst
    rw [← isLast,← isFirst,nextIs]
  have again : ∀ state ∈ (history ++ [accepted]).drop start ++ [next], state ∈ (history ++ [accepted]).drop (start + 1) ++ [next] := by
    intro state member
    rw [drops,List.cons_append,List.mem_cons] at member
    rcases member with rfl | rest
    · exact List.mem_append_right _ (List.mem_singleton_self state)
    · exact rest
  refine ⟨fun path member => ?_,fun none => ?_⟩
  · obtain ⟨_,⟨state,listed,holds⟩,misses⟩ := mem_togglers.mp member
    have eligible := states state listed path holds
    obtain ⟨other,listed',lacks⟩ := misses eligible
    refine ⟨eligible,within,_,next,chain,?_,eligible,⟨state,again state listed,holds⟩,other,again other listed',lacks⟩
    rw [← List.cons_append,List.getLast?_append,List.getLast?_singleton,Option.some_or]
  · refine moves (sublist_ext distinct canonical.1 (rounding.canonical accepted (by simp)).1 fun path => ?_)
    have kept : ∀ state ∈ (history ++ [accepted]).drop start ++ [next], path ∈ state →
        ∀ other ∈ (history ++ [accepted]).drop start ++ [next], path ∈ other := by
      intro state listed holds other listed'
      by_contra lacks
      have inPaths : path ∈ ordered.map Prod.fst := by
        rcases List.mem_append.mp listed with old | new
        · exact (rounding.canonical state (List.mem_of_mem_drop old)).1.subset holds
        · exact canonical.1.subset (List.mem_singleton.mp new ▸ holds)
      have toggles : path ∈ togglers ordered within ((history ++ [accepted]).drop start ++ [next]) :=
        mem_togglers.mpr ⟨inPaths,⟨state,listed,holds⟩,fun _ => ⟨other,listed',lacks⟩⟩
      rw [none] at toggles
      exact nomatch toggles
    have inStates : accepted ∈ (history ++ [accepted]).drop start ++ [next] := List.mem_append_left _ accepts
    have alsoNext : next ∈ (history ++ [accepted]).drop start ++ [next] := List.mem_append_right _ (List.mem_singleton_self next)
    exact ⟨fun holds => kept next alsoNext holds accepted inStates,fun holds => kept accepted inStates holds next alsoNext⟩

/-- The rounds end, and what they end with is stable. -/
theorem settleProviders_settled (distinct : (ordered.map Prod.fst).Nodup) {start : List Path} (fuel : Nat) {eligible accepted : List Path}
    {history : List (List Path)} {cycle : List Path} (rounding : Rounding ordered liveHash eligible (history ++ [accepted]))
    (canonical : eligible.Sublist (ordered.map Prod.fst)) (remains : ∀ path, path ∈ eligible ↔ path ∈ start ∧ path ∉ cycle)
    (toggles : ∀ path ∈ cycle, path ∈ start ∧ Toggles ordered liveHash path)
    (enough : roundsLeft ordered.length eligible.length history.length ≤ fuel) :
    (∃ rounds, rounds.length ≤ fuel ∧
      Loop ordered liveHash rounds eligible accepted history cycle (settleProviders ordered liveHash fuel eligible accepted history cycle)) ∧
      StableProviders ordered liveHash start (settleProviders ordered liveHash fuel eligible accepted history cycle).1
        (settleProviders ordered liveHash fuel eligible accepted history cycle).2 := by
  induction fuel generalizing eligible accepted history cycle with
  | zero =>
    rw [roundsLeft] at enough
    omega
  | succ fuel ih =>
    have bounded := rounding.bounded
    rw [List.length_append,List.length_singleton] at bounded
    have unfolded : settleProviders ordered liveHash (fuel + 1) eligible accepted history cycle =
        if viable ordered liveHash eligible accepted = accepted then (accepted,cycle)
        else ((history ++ [accepted]).findIdx? (· == viable ordered liveHash eligible accepted)).elim
          (settleProviders ordered liveHash fuel eligible (viable ordered liveHash eligible accepted) (history ++ [accepted]) cycle)
          fun first =>
            let toggling := togglers ordered eligible ((history ++ [accepted]).drop first ++ [viable ordered liveHash eligible accepted])
            let kept := eligible.filter (· ∉ toggling)
            settleProviders ordered liveHash fuel kept kept [] (cycle ++ toggling) := by
      rw [settleProviders]
      refine if_congr Iff.rfl rfl ?_
      rw [viable]
      cases List.findIdx? _ (history ++ [accepted]) <;> rfl
    rw [unfolded]
    split
    · next stable => exact ⟨⟨[(eligible,accepted)],by rw [List.length_singleton]; omega,.stops stable⟩,⟨eligible,stable.symm,remains⟩,toggles⟩
    · next moves =>
      cases found : (history ++ [accepted]).findIdx? (· == viable ordered liveHash eligible accepted) with
      | some first =>
        obtain ⟨within,some⟩ := rounding.toggling distinct found moves
        simp only [Option.elim_some]
        generalize isToggling : togglers ordered eligible
          ((history ++ [accepted]).drop first ++ [viable ordered liveHash eligible accepted]) = toggling at within some ⊢
        have fewer : (eligible.filter (· ∉ toggling)).length < eligible.length := by
          obtain ⟨path,member⟩ := List.exists_mem_of_ne_nil toggling some
          exact List.length_filter_lt_length_iff_exists.mpr ⟨path,(within path member).1,by simp [member]⟩
        have sub : (eligible.filter (· ∉ toggling)).Sublist (ordered.map Prod.fst) := List.filter_sublist.trans canonical
        have restarted : Rounding ordered liveHash (eligible.filter (· ∉ toggling)) ([] ++ [eligible.filter (· ∉ toggling)]) := by
          refine ⟨List.isChain_singleton _,List.nodup_singleton _,fun state member => ?_⟩
          rw [List.nil_append,List.mem_singleton] at member
          subst member
          exact ⟨sub,fun _ holds => holds⟩
        have left : ∀ path, path ∈ eligible.filter (· ∉ toggling) ↔ path ∈ start ∧ path ∉ cycle ++ toggling := by
          intro path
          rw [List.mem_filter,decide_eq_true_eq,remains,List.mem_append,not_or,and_assoc]
        have rejected : ∀ path ∈ cycle ++ toggling, path ∈ start ∧ Toggles ordered liveHash path := by
          intro path member
          rcases List.mem_append.mp member with old | new
          · exact toggles path old
          · obtain ⟨eligible,toggles⟩ := within path new
            exact ⟨((remains path).mp eligible).1,toggles⟩
        have fuelled : roundsLeft ordered.length (eligible.filter (· ∉ toggling)).length ([] : List (List Path)).length ≤ fuel := by
          rw [roundsLeft] at enough ⊢
          have product := Nat.mul_le_mul_right (2 ^ ordered.length + 1) fewer
          rw [Nat.succ_mul] at product
          rw [List.length_nil]
          omega
        obtain ⟨⟨rounds,few,loop⟩,settled⟩ := ih restarted sub left rejected fuelled
        exact ⟨⟨_ :: rounds,by rw [List.length_cons]; omega,.restarts moves found isToggling loop⟩,settled⟩
      | none =>
        have new : viable ordered liveHash eligible accepted ∉ history ++ [accepted] := fun member => by
          have none := List.findIdx?_eq_none_iff.mp found _ member
          simp at none
        have continued : Rounding ordered liveHash eligible (history ++ [accepted] ++ [viable ordered liveHash eligible accepted]) := by
          refine ⟨?_,?_,fun state member => ?_⟩
          · refine List.isChain_append.mpr ⟨rounding.chain,List.isChain_singleton _,fun last isLast first isFirst => ?_⟩
            simp only [List.getLast?_append,List.getLast?_singleton,Option.some_or,Option.mem_some_iff,List.head?_cons] at isLast isFirst
            rw [← isLast,← isFirst]
          · exact List.nodup_append'.mpr
              ⟨rounding.distinct,List.nodup_singleton _,fun state old last => new (List.mem_singleton.mp last ▸ old)⟩
          · rcases List.mem_append.mp member with old | last
            · exact rounding.canonical state old
            · rw [List.mem_singleton.mp last]
              exact ⟨viable_sublist eligible accepted,viable_subset eligible accepted⟩
        have fuelled : roundsLeft ordered.length eligible.length (history ++ [accepted]).length ≤ fuel := by
          rw [roundsLeft] at enough ⊢
          rw [List.length_append,List.length_singleton]
          omega
        obtain ⟨⟨rounds,few,loop⟩,settled⟩ := ih continued canonical remains toggles fuelled
        exact ⟨⟨_ :: rounds,by rw [List.length_cons]; omega,.continues moves found loop⟩,settled⟩

end Rounds

section Contracts

theorem pathComponents_inj {a b : Path} (same : pathComponents a = pathComponents b) : a = b := by
  have joined : ∀ path : Path, [47].intercalate (pathComponents path) = path := fun path => List.intercalate_splitOn 47
  rw [← joined a,← joined b,same]

theorem pathBefore_antisymm {a b : Path} (first : pathBefore a b) (second : pathBefore b a) : a = b :=
  pathComponents_inj (List.le_antisymm first second)

/-- The candidates in the order of their paths. -/
def byPath (candidates : List (Path × Manifest)) : List (Path × Manifest) :=
  candidates.insertionSort fun a b => pathBefore a.1 b.1

theorem byPath_perm (candidates : List (Path × Manifest)) : (byPath candidates).Perm candidates := List.perm_insertionSort _ _

theorem byPath_sorted (candidates : List (Path × Manifest)) : (byPath candidates).Pairwise fun a b => pathBefore a.1 b.1 := by
  have total : Std.Total fun a b : Path × Manifest => pathBefore a.1 b.1 := ⟨fun a b => List.le_total _ _⟩
  have trans : IsTrans (Path × Manifest) fun a b => pathBefore a.1 b.1 := ⟨fun _ _ _ first second => List.le_trans first second⟩
  exact List.pairwise_insertionSort _ _

/-- Distinct paths have one order. -/
theorem byPath_unique {candidates other : List (Path × Manifest)} (distinct : (candidates.map Prod.fst).Nodup)
    (perm : other.Perm candidates) : byPath other = byPath candidates := by
  have same : (byPath other).Perm (byPath candidates) := (byPath_perm other).trans (perm.trans (byPath_perm candidates).symm)
  refine same.eq_of_pairwise (fun a b inA inB first second => ?_) (byPath_sorted other) (byPath_sorted candidates)
  exact List.inj_on_of_nodup_map distinct (perm.mem_iff.mp ((byPath_perm other).mem_iff.mp inA)) ((byPath_perm candidates).mem_iff.mp inB)
    (pathBefore_antisymm first second)

/-- The hash of the greatest path among the members that publish the interface. -/
def Publishes (candidates : List (Path × Manifest)) (member : Path → Prop) (iface hash : String) : Prop :=
  ∃ entry ∈ candidates, member entry.1 ∧ entry.2.publishes.lookup iface = some hash ∧
    ∀ other ∈ candidates, member other.1 → (other.2.publishes.lookup iface).isSome → pathBefore other.1 entry.1

theorem Publishes.unique {candidates : List (Path × Manifest)} (distinct : (candidates.map Prod.fst).Nodup) {member : Path → Prop}
    {iface a b : String} (first : Publishes candidates member iface a) (second : Publishes candidates member iface b) : a = b := by
  obtain ⟨entry,listed,accepted,found,greatest⟩ := first
  obtain ⟨other,listed',accepted',found',greatest'⟩ := second
  have before := greatest other listed' accepted' (by rw [found',Option.isSome_some])
  have after := greatest' entry listed accepted (by rw [found,Option.isSome_some])
  obtain rfl := List.inj_on_of_nodup_map distinct listed listed' (pathBefore_antisymm after before)
  exact Option.some.inj (found.symm.trans found')

theorem Publishes.congr {candidates other : List (Path × Manifest)} (same : ∀ entry, entry ∈ candidates ↔ entry ∈ other)
    {member also : Path → Prop}
    (agree : ∀ entry ∈ candidates, ∀ iface, (entry.2.publishes.lookup iface).isSome → (member entry.1 ↔ also entry.1)) {iface hash : String}
    (publishes : Publishes candidates member iface hash) : Publishes other also iface hash := by
  obtain ⟨entry,listed,accepted,found,greatest⟩ := publishes
  refine ⟨entry,(same entry).mp listed,(agree entry listed iface (by rw [found,Option.isSome_some])).mp accepted,found,
    fun rival inOther accepts here => ?_⟩
  have inCandidates := (same rival).mpr inOther
  exact greatest rival inCandidates ((agree rival inCandidates iface here).mpr accepts) here

/-- The hashes the loop lays over the live ones are those of the greatest paths. -/
theorem providedHashes_eq_some {ordered : List (Path × Manifest)} (sorted : ordered.Pairwise fun a b => pathBefore a.1 b.1)
    (distinct : (ordered.map Prod.fst).Nodup) (accepted : List Path) (iface hash : String) :
    providedHashes ordered accepted iface = some hash ↔ Publishes ordered (· ∈ accepted) iface hash := by
  have sound : ∀ {hash}, providedHashes ordered accepted iface = some hash → Publishes ordered (· ∈ accepted) iface hash := by
    intro hash found
    rw [providedHashes,List.findSome?_eq_some_iff] at found
    obtain ⟨later,entry,earlier,split,publishes,none⟩ := found
    have inOrder : ordered.filter (·.1 ∈ accepted) = earlier.reverse ++ entry :: later.reverse := by
      rw [← List.reverse_reverse (ordered.filter _),split]
      simp
    have pairs := sorted.sublist (List.filter_sublist (p := (·.1 ∈ accepted)))
    rw [inOrder,List.pairwise_append] at pairs
    have member : entry ∈ ordered.filter (·.1 ∈ accepted) := by rw [inOrder]; simp
    obtain ⟨listed,accepts⟩ := List.mem_filter.mp member
    refine ⟨entry,listed,of_decide_eq_true accepts,publishes,fun other inOrdered accepts' here => ?_⟩
    have inFiltered : other ∈ ordered.filter (·.1 ∈ accepted) := List.mem_filter.mpr ⟨inOrdered,decide_eq_true accepts'⟩
    rw [inOrder,List.mem_append,List.mem_cons] at inFiltered
    rcases inFiltered with before | rfl | after
    · exact pairs.2.2 other before entry List.mem_cons_self
    · exact List.le_refl _
    · rw [none other (List.mem_reverse.mp after)] at here
      exact nomatch here
  refine ⟨sound,fun publishes => ?_⟩
  cases found : providedHashes ordered accepted iface with
  | some other => rw [(sound found).unique distinct publishes]
  | none =>
    obtain ⟨entry,listed,accepts,here,_⟩ := publishes
    rw [providedHashes,List.findSome?_eq_none_iff] at found
    have none := found entry (List.mem_reverse.mpr (List.mem_filter.mpr ⟨listed,decide_eq_true accepts⟩))
    exact nomatch here.symm.trans none

variable (candidates : List (Path × Manifest)) (initiallyRejected : List Path) (liveHash : String → Option String)

/-- The providers that take part in the rounds. -/
def providers : List Path :=
  ((byPath candidates).filter fun entry => entry.1 ∉ initiallyRejected && !entry.2.publishes.isEmpty).map Prod.fst

/-- Where the rounds end. -/
def settled : List Path × List Path :=
  settleProviders (byPath candidates) liveHash (settleRounds (byPath candidates).length) (providers candidates initiallyRejected)
    (providers candidates initiallyRejected) [] []

/-- The candidates that are neither toggling nor rejected before, and do not fit the accepted providers. -/
def drifting (accepted cycle : List Path) : List Path :=
  ((byPath candidates).filter fun entry => entry.1 ∉ initiallyRejected && entry.1 ∉ cycle &&
    !verifyCompiledAgainst entry.2 (providedHashes (byPath candidates) accepted) liveHash).map Prod.fst

theorem resolveContractRejections_eq : resolveContractRejections candidates initiallyRejected liveHash =
    (settled candidates initiallyRejected liveHash).2 ++
      drifting candidates initiallyRejected liveHash (settled candidates initiallyRejected liveHash).1
        (settled candidates initiallyRejected liveHash).2 := rfl

/-- Neither rejected before nor by the rounds. -/
def Accepted (path : Path) : Prop :=
  path ∉ initiallyRejected ∧ path ∉ resolveContractRejections candidates initiallyRejected liveHash

variable {candidates}

theorem byPath_distinct (distinct : (candidates.map Prod.fst).Nodup) : ((byPath candidates).map Prod.fst).Nodup :=
  ((byPath_perm candidates).map Prod.fst).nodup_iff.mpr distinct

theorem settled_spec (distinct : (candidates.map Prod.fst).Nodup) :
    (∃ rounds, rounds.length ≤ settleRounds (byPath candidates).length ∧
      Loop (byPath candidates) liveHash rounds (providers candidates initiallyRejected) (providers candidates initiallyRejected) [] []
        (settled candidates initiallyRejected liveHash)) ∧
      StableProviders (byPath candidates) liveHash (providers candidates initiallyRejected)
        (settled candidates initiallyRejected liveHash).1 (settled candidates initiallyRejected liveHash).2 := by
  have sub : (providers candidates initiallyRejected).Sublist ((byPath candidates).map Prod.fst) := List.filter_sublist.map _
  refine settleProviders_settled (byPath_distinct distinct) _ ⟨List.isChain_singleton _,List.nodup_singleton _,fun state member => ?_⟩
    sub (fun path => by simp) (fun _ none => nomatch none) ?_
  · rw [List.nil_append,List.mem_singleton] at member
    subst member
    exact ⟨sub,fun _ holds => holds⟩
  · have fewer := sub.length_le
    rw [List.length_map] at fewer
    have product := Nat.mul_le_mul_right (2 ^ (byPath candidates).length + 1) fewer
    rw [roundsLeft,settleRounds,Nat.succ_mul,List.length_nil]
    generalize 2 ^ (byPath candidates).length = sets at product ⊢
    omega

theorem mem_drifting (distinct : (candidates.map Prod.fst).Nodup) {accepted cycle : List Path} {entry : Path × Manifest}
    (listed : entry ∈ candidates) : entry.1 ∈ drifting candidates initiallyRejected liveHash accepted cycle ↔
      entry.1 ∉ initiallyRejected ∧ entry.1 ∉ cycle ∧
        verifyCompiledAgainst entry.2 (providedHashes (byPath candidates) accepted) liveHash = false := by
  rw [drifting,List.mem_map]
  constructor
  · rintro ⟨other,member,same⟩
    obtain ⟨inOrdered,fails⟩ := List.mem_filter.mp member
    obtain rfl := List.inj_on_of_nodup_map distinct ((byPath_perm candidates).mem_iff.mp inOrdered) listed same
    simpa [and_assoc] using fails
  · rintro ⟨free,apart,fails⟩
    exact ⟨entry,List.mem_filter.mpr ⟨(byPath_perm candidates).mem_iff.mpr listed,by simp [free,apart,fails]⟩,rfl⟩

/-- Among what publishes an interface the accepted providers are the accepted candidates. -/
theorem accepted_iff (distinct : (candidates.map Prod.fst).Nodup) {entry : Path × Manifest} (listed : entry ∈ candidates)
    (provides : entry.2.publishes.isEmpty = false) :
    entry.1 ∈ (settled candidates initiallyRejected liveHash).1 ↔ Accepted candidates initiallyRejected liveHash entry.1 := by
  obtain ⟨kept,stable,remains⟩ := (settled_spec initiallyRejected liveHash distinct).2.stable
  have inOrdered := (byPath_perm candidates).mem_iff.mpr listed
  have eligible : entry.1 ∈ providers candidates initiallyRejected ↔ entry.1 ∉ initiallyRejected := by
    rw [providers,List.mem_map]
    constructor
    · rintro ⟨other,member,same⟩
      have passes := (List.mem_filter.mp member).2
      rw [Bool.and_eq_true,decide_eq_true_eq,same] at passes
      exact passes.1
    · exact fun free => ⟨entry,List.mem_filter.mpr ⟨inOrdered,by simp [free,provides]⟩,rfl⟩
  have member : entry.1 ∈ viable (byPath candidates) liveHash kept (settled candidates initiallyRejected liveHash).1 ↔ _ :=
    mem_viable (byPath_distinct distinct) inOrdered
  rw [← stable,remains,eligible] at member
  rw [member,Accepted,resolveContractRejections_eq,List.mem_append,mem_drifting initiallyRejected liveHash distinct listed]
  constructor
  · rintro ⟨⟨free,apart⟩,passes⟩
    refine ⟨free,?_⟩
    rintro (toggles | ⟨_,_,fails⟩)
    · exact apart toggles
    · exact nomatch passes.symm.trans fails
  · rintro ⟨free,fits⟩
    rw [not_or] at fits
    refine ⟨⟨free,fits.1⟩,?_⟩
    rw [← Bool.not_eq_false]
    exact fun fails => fits.2 ⟨free,fits.1,fails⟩

/-- What the members of the accepted set publish is what the last round was checked against. -/
theorem accepted_hashes (distinct : (candidates.map Prod.fst).Nodup) (iface hash : String) :
    providedHashes (byPath candidates) (settled candidates initiallyRejected liveHash).1 iface = some hash ↔
      Publishes candidates (Accepted candidates initiallyRejected liveHash) iface hash := by
  have provides : ∀ entry ∈ candidates, ∀ name, (entry.2.publishes.lookup name).isSome →
      (entry.1 ∈ (settled candidates initiallyRejected liveHash).1 ↔ Accepted candidates initiallyRejected liveHash entry.1) := by
    intro entry listed name here
    refine accepted_iff initiallyRejected liveHash distinct listed ?_
    cases publishes : entry.2.publishes with
    | nil =>
      rw [publishes] at here
      exact nomatch here
    | cons first rest => rfl
  have ordered : ∀ entry, entry ∈ byPath candidates ↔ entry ∈ candidates := fun _ => (byPath_perm candidates).mem_iff
  rw [providedHashes_eq_some (byPath_sorted candidates) (byPath_distinct distinct)]
  constructor
  · exact fun publishes => publishes.congr ordered fun entry listed name here => provides entry ((ordered entry).mp listed) name here
  · exact fun publishes => publishes.congr (fun entry => (ordered entry).symm)
      fun entry listed name here => (provides entry listed name here).symm

/-- Who is accepted fits what the accepted publish. -/
theorem accepted_fits (distinct : (candidates.map Prod.fst).Nodup) {entry : Path × Manifest} (listed : entry ∈ candidates)
    (accepts : Accepted candidates initiallyRejected liveHash entry.1) :
    verifyCompiledAgainst entry.2 (providedHashes (byPath candidates) (settled candidates initiallyRejected liveHash).1) liveHash = true := by
  rw [Accepted,resolveContractRejections_eq,List.mem_append,mem_drifting initiallyRejected liveHash distinct listed,not_or] at accepts
  rw [← Bool.not_eq_false]
  exact fun fails => accepts.2.2 ⟨accepts.1,accepts.2.1,fails⟩

end Contracts

end S2Script.Loader

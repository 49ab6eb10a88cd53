import S2Script.DeferQueue

/-! What the log of the deferred-dispatch queue may say, against the entries that still wait:
one lemma for each kind of event. -/
namespace S2Script.DeferQueue

/-- What happened since an entry was accepted, the newest first. -/
def since (log : List Event) (n : Nat) : List Event := log.takeWhile (· ≠ .accepted n)

/-- What may happen after what already did. An entry is replayed after those accepted before it,
by a drain that started after it was accepted, and with no flush since. -/
def Allowed (older : List Event) : Event → Prop
  | .accepted n => ∀ m, .accepted m ∈ older → m < n
  | .replayed n => .accepted n ∈ older ∧ .started ∈ since older n ∧ .flushed ∉ since older n ∧
      ∀ m, .replayed m ∈ older → m < n
  | _ => True

def Ordered : List Event → Prop
  | [] => True
  | e :: older => Allowed older e ∧ Ordered older

/-- A drain that started after the entry was accepted was unwound. -/
def Unwound (log : List Event) (n : Nat) : Prop :=
  ∃ newer older, since log n = newer ++ .unwound :: older ∧ .started ∈ older

theorem since_cons {log : List Event} {e : Event} {n : Nat} (other : e ≠ .accepted n) :
    since (e :: log) n = e :: since log n := by
  rw [since,List.takeWhile_cons_of_pos (by simpa using other),since]

theorem since_accepted (log : List Event) (n : Nat) : since (.accepted n :: log) n = [] := by
  simp [since]

theorem Unwound.cons {log : List Event} {e : Event} {n : Nat} (unwound : Unwound log n) (other : e ≠ .accepted n) :
    Unwound (e :: log) n := by
  obtain ⟨newer,older,split,started⟩ := unwound
  exact ⟨e :: newer,older,by rw [since_cons other,split,List.cons_append],started⟩

/-- The log against the entries that a drain still has to replay and those that wait for the next. -/
structure Kept (log : List Event) (rest queue : List Nat) (next : Nat) : Prop where
  ordered : Ordered log
  numbered : ∀ n, .accepted n ∈ log → n < next
  known : ∀ n, .replayed n ∈ log → n < next
  waiting : ∀ n ∈ rest ++ queue, .accepted n ∈ log ∧ .flushed ∉ since log n
  taken : ∀ n ∈ rest, .started ∈ since log n
  sorted : (rest ++ queue).Pairwise (· < ·)
  ahead : ∀ m, .replayed m ∈ log → ∀ n ∈ rest ++ queue, m < n
  lost : ∀ n, .accepted n ∈ log → n ∈ rest ++ queue ∨ .replayed n ∈ log ∨ .flushed ∈ since log n ∨ Unwound log n

theorem Kept.new : Kept [] [] [] 0 := by
  constructor <;> simp [Ordered]

variable {log : List Event} {rest queue : List Nat} {next : Nat}

theorem Kept.accept (kept : Kept log rest queue next) :
    Kept (.accepted next :: log) rest (queue ++ [next]) (next + 1) where
  ordered := ⟨kept.numbered,kept.ordered⟩
  numbered n member := by
    rcases List.mem_cons.mp member with same | old
    · simp only [Event.accepted.injEq] at same
      omega
    · exact Nat.lt_succ_of_lt (kept.numbered n old)
  known n member := Nat.lt_succ_of_lt (kept.known n (by simpa using member))
  waiting n member := by
    rw [← List.append_assoc,List.mem_append] at member
    rcases member with old | new
    · have here := kept.waiting n old
      have before := kept.numbered n here.1
      have other : Event.accepted next ≠ .accepted n := by simp; omega
      rw [since_cons other]
      exact ⟨List.mem_cons_of_mem _ here.1,by simpa using here.2⟩
    · obtain rfl := List.mem_singleton.mp new
      rw [since_accepted]
      exact ⟨List.mem_cons_self,List.not_mem_nil⟩
  taken n member := by
    have before := kept.numbered n (kept.waiting n (List.mem_append_left _ member)).1
    have other : Event.accepted next ≠ .accepted n := by simp; omega
    rw [since_cons other]
    exact List.mem_cons_of_mem _ (kept.taken n member)
  sorted := by
    rw [← List.append_assoc,List.pairwise_append]
    refine ⟨kept.sorted,by simp,fun m member n new => ?_⟩
    obtain rfl := List.mem_singleton.mp new
    exact kept.numbered m (kept.waiting m member).1
  ahead m member n waits := by
    rw [← List.append_assoc,List.mem_append] at waits
    have old : Event.replayed m ∈ log := by simpa using member
    rcases waits with before | new
    · exact kept.ahead m old n before
    · obtain rfl := List.mem_singleton.mp new
      exact kept.known m old
  lost n member := by
    rw [← List.append_assoc,List.mem_append]
    rcases List.mem_cons.mp member with same | old
    · simp only [Event.accepted.injEq] at same
      exact .inl (.inr (by simp [same]))
    · have before := kept.numbered n old
      have other : Event.accepted next ≠ .accepted n := by simp; omega
      rw [since_cons other]
      rcases kept.lost n old with waits | replayed | flushed | unwound
      · exact .inl (.inl waits)
      · exact .inr (.inl (List.mem_cons_of_mem _ replayed))
      · exact .inr (.inr (.inl (List.mem_cons_of_mem _ flushed)))
      · exact .inr (.inr (.inr (unwound.cons other)))

/-- An event that is neither an acceptance, a replay nor a flush, and what it may take away. -/
theorem Kept.note (kept : Kept log rest queue next) {e : Event} {rest' queue' : List Nat}
    (accepted : ∀ n, e ≠ .accepted n) (replayed : ∀ n, e ≠ .replayed n) (flushed : e ≠ .flushed)
    (fewer : (rest' ++ queue').Sublist (rest ++ queue)) (taken : ∀ n ∈ rest', n ∈ rest ∨ e = .started)
    (gone : ∀ n ∈ rest ++ queue, n ∈ rest' ++ queue' ∨ e = .unwound ∧ n ∈ rest) :
    Kept (e :: log) rest' queue' next where
  ordered := by
    refine ⟨?_,kept.ordered⟩
    cases e with
    | accepted n => exact absurd rfl (accepted n)
    | replayed n => exact absurd rfl (replayed n)
    | _ => trivial
  numbered n member := kept.numbered n (List.mem_of_ne_of_mem (accepted n).symm member)
  known n member := kept.known n (List.mem_of_ne_of_mem (replayed n).symm member)
  waiting n member := by
    have here := kept.waiting n (fewer.subset member)
    rw [since_cons (accepted n)]
    exact ⟨List.mem_cons_of_mem _ here.1,List.not_mem_cons_of_ne_of_not_mem flushed.symm here.2⟩
  taken n member := by
    rw [since_cons (accepted n)]
    rcases taken n member with old | rfl
    · exact List.mem_cons_of_mem _ (kept.taken n old)
    · exact List.mem_cons_self
  sorted := kept.sorted.sublist fewer
  ahead m member n waits := kept.ahead m (List.mem_of_ne_of_mem (replayed m).symm member) n (fewer.subset waits)
  lost n member := by
    rw [since_cons (accepted n)]
    rcases kept.lost n (List.mem_of_ne_of_mem (accepted n).symm member) with waits | old | old | unwound
    · rcases gone n waits with still | ⟨rfl,inside⟩
      · exact .inl still
      · exact .inr (.inr (.inr ⟨[],since log n,since_cons (accepted n),kept.taken n inside⟩))
    · exact .inr (.inl (List.mem_cons_of_mem _ old))
    · exact .inr (.inr (.inl (List.mem_cons_of_mem _ old)))
    · exact .inr (.inr (.inr (unwound.cons (accepted n))))

theorem Kept.free (kept : Kept log rest queue next) (owned : List Nat) :
    Kept ((owned.map Event.freed).reverse ++ log) rest queue next := by
  induction owned generalizing log with
  | nil => exact kept
  | cons d owned ih =>
    rw [List.map_cons,List.reverse_cons,List.append_assoc]
    exact ih (kept.note (by simp) (by simp) (by simp) (.refl _) (fun _ => .inl) fun _ => .inl)

/-- A drain takes the queue once nothing is left of the batch before. -/
theorem Kept.start (kept : Kept log [] queue next) : Kept (.started :: log) queue [] next :=
  kept.note (by simp) (by simp) (by simp) (by simp) (fun _ _ => .inr rfl) fun _ member => .inl (by simpa using member)

theorem Kept.unwind (kept : Kept log rest queue next) : Kept (.unwound :: log) [] queue next :=
  kept.note (by simp) (by simp) (by simp) (List.sublist_append_right _ _) (by simp) fun _ member =>
    (List.mem_append.mp member).elim (fun inside => .inr ⟨rfl,inside⟩) .inl

theorem Kept.replay {n : Nat} (kept : Kept log (n :: rest) queue next) : Kept (.replayed n :: log) rest queue next where
  ordered := by
    have here := kept.waiting n List.mem_cons_self
    exact ⟨⟨here.1,kept.taken n List.mem_cons_self,here.2,fun m before => kept.ahead m before n List.mem_cons_self⟩,
      kept.ordered⟩
  numbered m member := kept.numbered m (by simpa using member)
  known m member := by
    rcases List.mem_cons.mp member with same | old
    · simp only [Event.replayed.injEq] at same
      exact same ▸ kept.numbered n (kept.waiting n List.mem_cons_self).1
    · exact kept.known m old
  waiting m member := by
    have here := kept.waiting m (List.mem_cons_of_mem _ member)
    rw [since_cons (by simp)]
    exact ⟨List.mem_cons_of_mem _ here.1,by simpa using here.2⟩
  taken m member := by
    rw [since_cons (by simp)]
    exact List.mem_cons_of_mem _ (kept.taken m (List.mem_cons_of_mem _ member))
  sorted := (List.pairwise_cons.mp kept.sorted).2
  ahead m member k waits := by
    rcases List.mem_cons.mp member with same | old
    · simp only [Event.replayed.injEq] at same
      exact same ▸ (List.pairwise_cons.mp kept.sorted).1 k waits
    · exact kept.ahead m old k (List.mem_cons_of_mem _ waits)
  lost m member := by
    rw [since_cons (by simp)]
    rcases kept.lost m (by simpa using member) with waits | old | old | unwound
    · rcases List.mem_cons.mp waits with rfl | still
      · exact .inr (.inl List.mem_cons_self)
      · exact .inl still
    · exact .inr (.inl (List.mem_cons_of_mem _ old))
    · exact .inr (.inr (.inl (List.mem_cons_of_mem _ old)))
    · exact .inr (.inr (.inr (unwound.cons (by simp))))

/-- A flush takes every entry accepted so far. -/
theorem Kept.flush (kept : Kept log rest queue next) : Kept (.flushed :: log) [] [] next where
  ordered := ⟨trivial,kept.ordered⟩
  numbered n member := kept.numbered n (by simpa using member)
  known n member := kept.known n (by simpa using member)
  waiting := by simp
  taken := by simp
  sorted := by simp
  ahead := by simp
  lost n member := by
    rw [since_cons (by simp)]
    exact .inr (.inr (.inl List.mem_cons_self))

end S2Script.DeferQueue

import S2Script.SharedEntitySwitchInvariant

/-! What happens to recorded holders, and the switch's agreement with the engine over
whole runs. -/
namespace S2Script.SharedEntitySwitch

open Liveness Reentrant

/-- What a step may take from the recorded holders of live keys. -/
def Loses (s after : State) (allowed : Key → Holder → Prop) : Prop :=
  ∀ (key : Key) (holders : Finset Holder) (holder : Holder), s.leases[key]? = some holders →
    holder ∈ holders → (∃ remaining : Finset Holder, after.leases[key]? = some remaining ∧
      holder ∈ remaining) ∨ after.live key = false ∨ allowed key holder

theorem Loses.nothing (s : State) (allowed : Key → Holder → Prop) : Loses s s allowed :=
  fun _ holders _ found member => .inl ⟨holders,found,member⟩

theorem Loses.trans {s middle after : State} {allowed : Key → Holder → Prop}
    (first : Loses s middle allowed) (second : Loses middle after allowed)
    (books : after.books = middle.books) : Loses s after allowed := by
  intro key holders holder found member
  rcases first key holders holder found member with ⟨remaining,kept,still⟩ | dead | lost
  · exact second key remaining holder kept still
  · exact .inr (.inl (by simpa [State.live,books] using dead))
  · exact .inr (.inr lost)

theorem Loses.erase_dead {s : State} {key : Key} {allowed : Key → Holder → Prop}
    (dead : s.live key = false) : Loses s { s with leases := s.leases.erase key } allowed := by
  intro other holders holder found member
  by_cases same : other = key
  · exact .inr (.inl (same ▸ dead))
  · refine .inl ⟨holders,?_,member⟩
    simpa [Std.HashMap.getElem?_erase,Ne.symm same] using found

theorem State.retryKeys_loses (keys : List Key) (result : Outcome) (s : State)
    (allowed : Key → Holder → Prop) : Loses s (retryKeys keys result s).1 allowed := by
  induction keys generalizing s with
  | nil => exact .nothing s allowed
  | cons key rest previous =>
    simp only [retryKeys]
    split
    · exact previous s
    split
    · exact previous s
    split
    next dead =>
      exact (Loses.erase_dead (by simpa using dead)).trans (previous _)
        (retryKeys_books rest result _)
    next => exact .nothing s allowed

theorem Loses.sweep (s : State) (matching : Key → Holder → Bool) :
    Loses s (s.sweep matching) (fun key holder => matching key holder = true) := by
  intro key holders holder found member
  by_cases live : s.live key = true
  · by_cases matched : matching key holder = true
    · exact .inr (.inr matched)
    · refine .inl ⟨holders.filter (fun holder => !matching key holder),?_,by simp [member,matched]⟩
      simp [State.sweep_getElem?,found,live]
  · have dead : s.live key = false := by simpa using live
    exact .inr (.inl dead)

theorem Decays.loses {s after : State} (decays : Decays s after)
    (whole : ∀ {key : Key} {holders : Finset Holder}, after.leases[key]? = some holders →
      s.leases[key]? = some holders) (allowed : Key → Holder → Prop) : Loses s after allowed := by
  intro key holders holder found member
  by_cases live : after.live key = true
  · obtain ⟨remaining,entry⟩ := Option.isSome_iff_exists.mp
      (decays.keeps live (by simp [found]))
    obtain rfl : remaining = holders := by simpa [found] using (whole entry).symm
    exact .inl ⟨remaining,entry,member⟩
  · exact .inr (.inl (by simpa using live))

section Holders

variable {s after : State} {op : Op}

/-- Every holder of the key is the operation's to remove. -/
theorem Loses.at_key {key : Key} (others : ∀ other, other ≠ key →
      after.leases[other]? = s.leases[other]?)
    (own : ∀ {holders holder}, s.leases[key]? = some holders → holder ∈ holders →
      Removes key holder op) :
    Loses s after (fun key holder => Removes key holder op) := by
  intro other holders holder found member
  by_cases same : other = key
  · subst same
    exact .inr (.inr (own found member))
  · exact .inl ⟨holders,(others other same).trans found,member⟩

theorem State.change_loses {owner : String} {key : Key} {token : Option String} {on : Bool}
    (runs : Runs op owner key token on) :
    Loses s (s.change owner key token on).1 (fun key holder => Removes key holder op) := by
  unfold State.change
  split
  · exact .nothing s _
  split
  · exact .nothing s _
  next named =>
  split
  · exact .nothing s _
  split
  next dead => exact .erase_dead (by simpa using dead)
  next =>
  extract_lets previous next wasOn wantOn
  split
  · split
    · intro other holders holder found member
      by_cases same : other = key
      · subst same
        by_cases stays : holder ∈ next
        · exact .inl ⟨next,by simp,stays⟩
        · refine .inr (.inr (runs.removes named member ?_))
          simpa [next,previous,found] using stays
      · refine .inl ⟨holders,?_,member⟩
        simpa [Std.HashMap.getElem?_insert,Ne.symm same] using found
    · exact .nothing s _
  · exact .nothing s _

theorem State.finishChange_loses {key : Key} {next : Finset Holder} {wantOn : Bool} {epoch : Nat}
    (own : ∀ {holders holder}, s.leases[key]? = some holders → holder ∈ holders →
      Removes key holder op) (result : Outcome) :
    Loses s (s.finishChange key next wantOn epoch result).1
      (fun key holder => Removes key holder op) := by
  have erased : ∀ other, other ≠ key → (s.leases.erase key)[other]? = s.leases[other]? := by
    intro other different
    simp [Std.HashMap.getElem?_erase,Ne.symm different]
  have inserted (holders : Finset Holder) : ∀ other, other ≠ key →
      (s.leases.insert key holders)[other]? = s.leases[other]? := by
    intro other different
    simp [Std.HashMap.getElem?_insert,Ne.symm different]
  unfold State.finishChange
  extract_lets s₁ superseded
  split
  · split
    · refine Loses.trans (.at_key ?_ own) (retryKeys_loses [key] superseded _ _)
        (retryKeys_books ..)
      exact fun other different => orDefault_other s₁ different
    split
    · exact .at_key erased own
    · exact .at_key (fun _ _ => rfl) own
  · split
    · split
      · exact .at_key (inserted ∅) own
      · exact .at_key (fun _ _ => rfl) own
    · split
      · exact .at_key (inserted next) own
      · exact .at_key erased own

theorem State.finishRetry_loses {key : Key} {rest : List Key} {result : Outcome}
    (own : ∀ {holders holder}, s.leases[key]? = some holders → holder ∈ holders →
      Removes key holder op) (answer : Outcome) :
    Loses s (s.finishRetry key rest result answer).1
      (fun key holder => Removes key holder op) := by
  unfold State.finishRetry
  refine Loses.trans (.at_key ?_ own) (retryKeys_loses rest result _ _) (retryKeys_books ..)
  intro other different
  split
  · simp [Std.HashMap.getElem?_erase,Ne.symm different,answered]
  · rfl

theorem State.removeWhere_loses (matching : Key → Holder → Bool)
    (own : ∀ key holder, matching key holder = true → Removes key holder op) :
    Loses s (s.removeWhere matching).1 (fun key holder => Removes key holder op) := by
  refine Loses.trans ?_ (retryKeys_loses _ _ _ _) (retryKeys_books ..)
  intro key holders holder found member
  rcases Loses.sweep s matching key holders holder found member with kept | dead | matched
  · exact .inl kept
  · exact .inr (.inl dead)
  · exact .inr (.inr (own key holder matched))

theorem start_loses (op : Op) (minted : s.books.Minted) :
    Loses s (start op s).1 (fun key holder => Removes key holder op) := by
  cases op with
  | change owner key token on => exact State.change_loses (.inl rfl)
  | releaseRecorded owner key token => exact State.change_loses (.inr ⟨token,rfl,rfl,rfl⟩)
  | removeOwner owner =>
    refine State.removeWhere_loses _ fun key holder matched => ?_
    obtain rfl : holder.1 = owner := by simpa using matched
    exact .unload
  | clearSlot slot =>
    refine State.removeWhere_loses _ fun key holder matched => ?_
    obtain rfl : key.slot = slot := by simpa using matched
    exact .slot
  | retryPending => exact State.retryKeys_loses _ _ s _
  | pruneDead =>
    have kept := State.pruneDead_decays (.refl s.books)
    exact kept.1.loses kept.2 _
  | created index serial =>
    have kept := State.notified_decays minted (EntityBooks.onCreated_evolves s.books index serial)
      (fun _ => EntityBooks.onCreated_retires minted)
    exact kept.1.loses kept.2 _
  | spawned index serial =>
    have kept := State.notified_decays minted (EntityBooks.onSpawned_evolves s.books index serial)
      (fun _ => EntityBooks.onSpawned_retires minted)
    exact kept.1.loses kept.2 _
  | deleted index serial =>
    have kept := State.notified_decays minted (EntityBooks.onDeleted_evolves s.books index serial)
      (fun _ => EntityBooks.onDeleted_retires)
    exact kept.1.loses kept.2 _
  | repaired slots =>
    have kept := State.pruneDead_decays (EntityBooks.repairReconcile_evolves s.books slots)
    exact kept.1.loses kept.2 _
  | mapTransition => exact State.reset_decays.loses (by simp [State.reset]) _

theorem resume_loses {frame : Frame} (answer : Outcome) (waiting : Suspended s op frame) :
    Loses s (resume frame answer s).1 (fun key holder => Removes key holder op) := by
  cases frame with
  | change key next wantOn epoch => exact State.finishChange_loses waiting.releasing answer
  | retry key rest result => exact State.finishRetry_loses waiting.releasing answer

end Holders

section Acquired

variable {s : State} {owner : String} {key : Key} {token : String}

/-- The holder is on record. -/
def State.Records (s : State) (key : Key) (holder : Holder) : Prop :=
  ∃ holders : Finset Holder, s.leases[key]? = some holders ∧ holder ∈ holders

/-- An acquisition that returns success without calling the engine found it on. -/
theorem State.change_records
    (returned : (s.change owner key (some token) true).2.result? = some (.ok ())) :
    (s.change owner key (some token) true).1.Records key (owner,token) := by
  have wanted : ∀ previous : Finset Holder, nextHolders owner (some token) true previous ≠ ∅ :=
    fun previous => Finset.insert_ne_empty _ _
  unfold State.change at returned ⊢
  simp only [Option.isNone_some,Bool.and_false,Bool.false_eq_true,if_false,if_true,wanted,ne_eq,
    not_false_eq_true,decide_true] at returned ⊢
  split at returned
  · simp [Flow.result?] at returned
  split at returned
  · simp [Flow.result?] at returned
  split at returned
  · simp [Flow.result?] at returned
  split at returned
  next slot free live present =>
    simp only [slot,free,live,present,if_true,if_false,Bool.false_eq_true]
    exact ⟨_,Std.HashMap.getElem?_insert_self,Finset.mem_insert_self _ _⟩
  · simp [Flow.result?] at returned

theorem State.retryKeys_refused (keys : List Key) {result : Outcome} (s : State)
    (refused : result.isOk = false) : (retryKeys keys result s).2.result? ≠ some (.ok ()) := by
  induction keys generalizing s with
  | nil =>
    cases result with
    | error _ => simp [retryKeys,Flow.result?]
    | ok _ => cases refused
  | cons key rest previous =>
    simp only [retryKeys]
    split
    · exact previous s
    split
    · exact previous s
    split
    · exact previous _
    · simp [Flow.result?]

theorem resume_records {frame : Frame} {answer : Outcome}
    (acquires : frame.Acquires owner key token)
    (returned : (resume frame answer s).2.result? = some (.ok ())) :
    (resume frame answer s).1.Records key (owner,token) := by
  cases frame with
  | retry target rest result =>
    exact absurd returned (State.retryKeys_refused rest _ acquires)
  | change target next wantOn epoch =>
    obtain ⟨rfl,rfl,member⟩ := acquires
    simp only [resume,State.finishChange] at returned ⊢
    split at returned
    · split at returned
      · exact absurd returned (State.retryKeys_refused [target] _ rfl)
      · split at returned <;> simp [Flow.result?] at returned
    next current =>
    cases answer with
    | error message => simp [Flow.result?] at returned
    | ok _ =>
      rw [if_neg current]
      exact ⟨next,Std.HashMap.getElem?_insert_self,member⟩

end Acquired

/-- In every state a run reaches: a live key outside an engine call is in the books
exactly when its last successful call switched it on; successful calls alternate, on
first; an entry without holders belongs to a switch that is still on; an acquisition
that returns success is on record; and a recorded holder goes only with its entity or
by an operation that may remove it. -/
theorem tracks_engine (events : List (Event Op Outcome)) :
    let config := process.execute events ⟨initial,[]⟩
    (∀ key, config.state.live key = true → key ∉ config.state.busy →
      (key ∈ config.state.leases ↔ config.state.engineOn key = true)) ∧
    (∀ key, Alternates (config.state.callsFor key)) ∧
    (∀ key : Key, config.state.leases[key]? = some ∅ → config.state.engineOn key = true) ∧
    (∀ event owner key token, process.outcome config event =
        some (.change owner key (some token) true,some (.ok ())) →
      (process.advance config event).state.Records key (owner,token)) ∧
    (∀ event key holder, config.state.Records key holder →
      ¬(process.advance config event).state.Records key holder →
      (process.advance config event).state.live key = false ∨
        ∃ op result, process.outcome config event = some (op,result) ∧
          Removes key holder op) := by
  intro config
  have valid : Invariant config := execute_invariant events
  obtain ⟨s,stack⟩ := config
  refine ⟨?_,valid.alternates,?_,?_,?_⟩
  · intro key live free
    rw [Std.HashMap.mem_iff_isSome_getElem?,valid.present_iff free live]
  · intro key empty
    exact valid.held key (by simp [empty])
  · intro event owner key token returned
    cases event with
    | start op =>
      obtain ⟨rfl,ended⟩ := Prod.mk.inj (Option.some.inj returned)
      simp only [Process.advance,Config.after_state]
      exact State.change_records ended
    | answer value =>
      cases stack with
      | nil => cases returned
      | cons top stack =>
        obtain ⟨acquires,ended⟩ := Prod.mk.inj (Option.some.inj returned)
        have waiting := valid.suspended top List.mem_cons_self
        simp only [Process.advance,Config.after_state]
        exact resume_records (waiting.acquiring acquires) ended
  · intro event key holder recorded lost
    obtain ⟨holders,found,member⟩ := recorded
    cases event with
    | start op =>
      simp only [Process.advance,Config.after_state] at lost ⊢
      rcases start_loses op valid.minted key holders holder found member with kept | dead | own
      · exact absurd kept lost
      · exact .inl dead
      · exact .inr ⟨op,_,rfl,own⟩
    | answer value =>
      cases stack with
      | nil => exact absurd ⟨holders,found,member⟩ lost
      | cons top stack =>
        have waiting := valid.suspended top List.mem_cons_self
        simp only [Process.advance,Config.after_state] at lost ⊢
        rcases resume_loses value waiting key holders holder found member with kept | dead | own
        · exact absurd kept lost
        · exact .inl dead
        · exact .inr ⟨top.1,_,rfl,own⟩

end S2Script.SharedEntitySwitch

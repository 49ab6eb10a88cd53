import S2Script.CookieOutbox

/-! What each key holds and who leases it. The lease loop hands out at most one payload
an account, each the account's oldest, and leaves what every key holds as it was. -/
namespace S2Script.Cookies

open WriteBehind

/-- The payloads of a key. -/
def heldAt (entries : Table CookieKey Pending) (key : CookieKey) : List Payload :=
  ((entries.lookup key).map Pending.held).getD []

/-- The leased attempt of a key. -/
def attemptAt (entries : Table CookieKey Pending) (key : CookieKey) : Option Attempt :=
  (entries.lookup key).bind Pending.attempt

def Payload.piece (payload : Payload) : Piece (String × Int) :=
  ⟨(payload.value,payload.updated),payload.revision,payload.coversFrom⟩

def pieces (entries : Table CookieKey Pending) (key : CookieKey) : List (Piece (String × Int)) :=
  (heldAt entries key).map Payload.piece

section Views

variable {entries : Table CookieKey Pending} {key other : CookieKey} {p : Pending}

theorem heldAt_of_lookup (here : entries.lookup key = some p) : heldAt entries key = p.held := by
  simp [heldAt,here]

theorem attemptAt_of_lookup (here : entries.lookup key = some p) : attemptAt entries key = p.attempt := by
  simp [attemptAt,here]

theorem heldAt_insert : heldAt (entries.insert key p) other = if other = key then p.held else heldAt entries other := by
  simp only [heldAt,Table.lookup_insert_eq]
  split <;> rfl

theorem attemptAt_insert :
    attemptAt (entries.insert key p) other = if other = key then p.attempt else attemptAt entries other := by
  simp only [attemptAt,Table.lookup_insert_eq]
  split <;> rfl

theorem heldAt_erase : heldAt (entries.erase key) other = if other = key then [] else heldAt entries other := by
  simp only [heldAt,Table.lookup_erase_eq]
  split <;> rfl

theorem attemptAt_erase :
    attemptAt (entries.erase key) other = if other = key then none else attemptAt entries other := by
  simp only [attemptAt,Table.lookup_erase_eq]
  split <;> rfl

theorem lookup_of_attemptAt {a : Attempt} (leased : attemptAt entries key = some a) :
    ∃ p, entries.lookup key = some p ∧ p.attempt = some a := Option.bind_eq_some_iff.mp leased

theorem attempt_held {a : Attempt} (leased : attemptAt entries key = some a) : a.payload ∈ heldAt entries key := by
  obtain ⟨p,here,attempt⟩ := lookup_of_attemptAt leased
  simp [heldAt_of_lookup here,Pending.held,attempt]

theorem mem_accountHeld {account : String} {payload : Payload} :
    payload ∈ accountHeld entries account ↔ ∃ key : CookieKey, key.1 = account ∧ payload ∈ heldAt entries key := by
  simp only [accountHeld,List.mem_flatMap,List.mem_filter,beq_iff_eq]
  constructor
  · rintro ⟨⟨key,p⟩,⟨entry,same⟩,member⟩
    exact ⟨key,same,heldAt_of_lookup ((Table.lookup_iff_entry entries key p).mpr entry) ▸ member⟩
  · rintro ⟨key,same,member⟩
    cases here : entries.lookup key with
    | none => simp [heldAt,here] at member
    | some p =>
      rw [heldAt_of_lookup here] at member
      exact ⟨⟨key,p⟩,⟨(Table.lookup_iff_entry entries key p).mp here,same⟩,member⟩

theorem mem_busyAccounts {account : String} :
    account ∈ busyAccounts entries ↔ ∃ key : CookieKey, ∃ a, key.1 = account ∧ attemptAt entries key = some a := by
  simp only [busyAccounts,List.mem_toFinset,List.mem_map,List.mem_filter,Option.isSome_iff_exists]
  constructor
  · rintro ⟨⟨key,p⟩,⟨entry,a,attempt⟩,same⟩
    exact ⟨key,a,same,(attemptAt_of_lookup ((Table.lookup_iff_entry entries key p).mpr entry)).trans attempt⟩
  · rintro ⟨key,a,same,leased⟩
    obtain ⟨p,here,attempt⟩ := lookup_of_attemptAt leased
    exact ⟨⟨key,p⟩,⟨(Table.lookup_iff_entry entries key p).mp here,a,attempt⟩,same⟩

/-- The oldest obligation is a lower bound of what the account holds. -/
theorem oldest_le {account : String} {start : Int} (first : oldest entries account = some start)
    (same : key.1 = account) {payload : Payload} (member : payload ∈ heldAt entries key) :
    start ≤ payload.coversFrom :=
  (List.min?_eq_some_iff.mp first).2 _ (List.mem_map_of_mem (mem_accountHeld.mpr ⟨key,same,member⟩))

end Views

/-- The leases of the entries: identities at most the last one and never shared, one
lease an account, each at the account's oldest payload, and not too many accounts. -/
structure Leases (concurrent : Nat) (entries : Table CookieKey Pending) (leaseId : Nat) : Prop where
  id_le : ∀ key a, attemptAt entries key = some a → a.id ≤ leaseId
  id_unique : ∀ key other a b, attemptAt entries key = some a → attemptAt entries other = some b → a.id = b.id →
    key = other
  single : ∀ key other a b, attemptAt entries key = some a → attemptAt entries other = some b → key.1 = other.1 →
    key = other
  first : ∀ key other a, attemptAt entries key = some a → other.1 = key.1 → ∀ payload ∈ heldAt entries other,
    a.payload.coversFrom ≤ payload.coversFrom
  few : (busyAccounts entries).card ≤ concurrent

/-- Losing leases keeps the rest, as long as nothing older appears beside them. -/
theorem Leases.shrink {concurrent leaseId : Nat} {entries after : Table CookieKey Pending}
    (leases : Leases concurrent entries leaseId)
    (fewer : ∀ key a, attemptAt after key = some a → attemptAt entries key = some a)
    (younger : ∀ key other a, attemptAt after key = some a → other.1 = key.1 → ∀ payload ∈ heldAt after other,
      a.payload.coversFrom ≤ payload.coversFrom) : Leases concurrent after leaseId where
  id_le key a leased := leases.id_le key a (fewer key a leased)
  id_unique key other a b leasedA leasedB := leases.id_unique key other a b (fewer key a leasedA) (fewer other b leasedB)
  single key other a b leasedA leasedB := leases.single key other a b (fewer key a leasedA) (fewer other b leasedB)
  first := younger
  few := by
    refine (Finset.card_le_card fun account busy => ?_).trans leases.few
    obtain ⟨key,a,same,leased⟩ := mem_busyAccounts.mp busy
    exact mem_busyAccounts.mpr ⟨key,a,same,fewer key a leased⟩

/-- A lease of a free account's oldest payload joins the others. -/
theorem Leases.grow {concurrent leaseId : Nat} {entries after : Table CookieKey Pending} {key : CookieKey} {a : Attempt}
    (leases : Leases concurrent entries leaseId) (id : a.id = leaseId + 1) (free : key.1 ∉ busyAccounts entries)
    (room : (busyAccounts entries).card < concurrent)
    (attempts : ∀ other, attemptAt after other = if other = key then some a else attemptAt entries other)
    (held : ∀ other, heldAt after other = heldAt entries other)
    (oldest : ∀ other : CookieKey, other.1 = key.1 → ∀ payload ∈ heldAt entries other,
      a.payload.coversFrom ≤ payload.coversFrom) :
    Leases concurrent after a.id ∧ busyAccounts after = insert key.1 (busyAccounts entries) := by
  have cases : ∀ other b, attemptAt after other = some b →
      other = key ∧ b = a ∨ other.1 ≠ key.1 ∧ attemptAt entries other = some b := by
    intro other b leased
    rw [attempts] at leased
    by_cases same : other = key
    · rw [if_pos same] at leased
      exact .inl ⟨same,(Option.some.inj leased).symm⟩
    · rw [if_neg same] at leased
      exact .inr ⟨fun account => free (mem_busyAccounts.mpr ⟨other,b,account,leased⟩),leased⟩
  have busy : busyAccounts after = insert key.1 (busyAccounts entries) := by
    ext account
    rw [Finset.mem_insert,mem_busyAccounts,mem_busyAccounts]
    constructor
    · rintro ⟨other,b,rfl,leased⟩
      rcases cases other b leased with ⟨rfl,_⟩ | ⟨_,old⟩
      · exact .inl rfl
      · exact .inr ⟨other,b,rfl,old⟩
    · rintro (rfl | ⟨other,b,rfl,leased⟩)
      · exact ⟨key,a,rfl,by rw [attempts,if_pos rfl]⟩
      · by_cases same : other = key
        · exact ⟨other,a,rfl,by rw [attempts,if_pos same]⟩
        · exact ⟨other,b,rfl,by rw [attempts,if_neg same,leased]⟩
  refine ⟨?_,busy⟩
  constructor
  · intro other b leased
    rcases cases other b leased with ⟨_,rfl⟩ | ⟨_,old⟩
    · exact Nat.le_refl _
    · have := leases.id_le other b old
      omega
  · intro one two b c leasedB leasedC same
    rcases cases one b leasedB with ⟨rfl,rfl⟩ | ⟨_,oldB⟩ <;> rcases cases two c leasedC with ⟨rfl,rfl⟩ | ⟨_,oldC⟩
    · rfl
    · have := leases.id_le two c oldC
      omega
    · have := leases.id_le one b oldB
      omega
    · exact leases.id_unique one two b c oldB oldC same
  · intro one two b c leasedB leasedC same
    rcases cases one b leasedB with ⟨rfl,_⟩ | ⟨apartB,oldB⟩ <;> rcases cases two c leasedC with ⟨rfl,_⟩ | ⟨apartC,oldC⟩
    · rfl
    · exact absurd same.symm apartC
    · exact absurd same apartB
    · exact leases.single one two b c oldB oldC same
  · intro one other b leased same payload member
    rw [held] at member
    rcases cases one b leased with ⟨rfl,rfl⟩ | ⟨_,old⟩
    · exact oldest other same payload member
    · exact leases.first one other b old same payload member
  · rw [busy,Finset.card_insert_of_notMem free]
    exact room

namespace Round

/-- What the loop of `lease` keeps while it visits the keys. -/
structure Sound (box : Outbox) (terms : Terms) (round : Round) : Prop where
  held : ∀ key, heldAt round.entries key = heldAt box.entries key
  keys : ∀ key, key ∈ round.entries ↔ key ∈ box.entries
  count : (round.entries.weight fun _ p => p.count) = box.entries.weight fun _ p => p.count
  size : (round.entries.weight fun _ p => p.bytes) = box.entries.weight fun _ p => p.bytes
  leases : Leases box.policy.concurrent round.entries round.leaseId
  busy : round.busy = busyAccounts round.entries
  card : round.busy.card = (busyAccounts box.entries).card + round.result.length
  limit : round.result.length ≤ terms.limit
  entered : ∀ a ∈ round.result, ∃ key, attemptAt round.entries key = some a
  attempts : ∀ key a, attemptAt round.entries key = some a → attemptAt box.entries key = some a ∨ a ∈ round.result
  later : box.leaseId ≤ round.leaseId
  fresh : ∀ a ∈ round.result, box.leaseId < a.id ∧ a.id ≤ round.leaseId
  ordered : round.result.Pairwise fun a b => a.id < b.id

/-- The order is not the invariant's business. -/
theorem Sound.reorder {box : Outbox} {terms : Terms} {round : Round} (sound : Sound box terms round)
    (order : List CookieKey) : Sound box terms { round with order := order } where
  __ := sound

theorem weight_refill (charge : Pending → Nat) {entries : Table CookieKey Pending} {key : CookieKey} {p q : Pending}
    (here : entries.lookup key = some p) (same : charge q = charge p) :
    Table.weight (fun _ r => charge r) (entries.insert key q) = entries.weight fun _ r => charge r := by
  rw [Table.weight_insert_erase,Table.weight_erase (fun _ r => charge r) here,same]

/-- Leasing an eligible payload keeps the loop's invariant. -/
theorem Sound.take {box : Outbox} {terms : Terms} {round : Round} (sound : Sound box terms round) {key : CookieKey}
    {p : Pending} {payload : Payload} (here : round.entries.lookup key = some p) (ready : p.ready = some payload)
    (admits : round.admits terms key p) (fits : round.fits terms key payload)
    (room : (busyAccounts box.entries).card + terms.limit ≤ box.policy.concurrent)
    (first : terms.oldest = oldest box.entries) : Sound box terms (round.take terms key p payload) := by
  simp only [Round.admits,Bool.and_eq_true,decide_eq_true_eq,Option.isNone_iff_eq_none] at admits
  simp only [Round.fits,Bool.and_eq_true,decide_eq_true_eq,beq_iff_eq] at fits
  obtain ⟨⟨⟨under,free⟩,_⟩,unleased⟩ := admits
  obtain ⟨⟨start,_⟩,_⟩ := fits
  let a : Attempt := ⟨round.leaseId + 1,terms.owner,payload⟩
  let q : Pending := { p with ready := none, attempt := some a }
  have heldSame : q.held = p.held := by simp [q,a,Pending.held,ready,unleased]
  have held : ∀ other, heldAt (round.entries.insert key q) other = heldAt round.entries other := by
    intro other
    rw [heldAt_insert]
    split
    · next same => rw [same,heldSame,heldAt_of_lookup here]
    · rfl
  have attempts : ∀ other, attemptAt (round.entries.insert key q) other =
      if other = key then some a else attemptAt round.entries other := fun _ => attemptAt_insert
  have oldest : ∀ other : CookieKey, other.1 = key.1 → ∀ old ∈ heldAt round.entries other,
      a.payload.coversFrom ≤ old.coversFrom := by
    intro other same old member
    rw [sound.held] at member
    exact oldest_le (first ▸ start) same member
  have card := sound.card
  have busySame := sound.busy
  rw [busySame] at free card
  obtain ⟨leases,busy⟩ := sound.leases.grow (a := a) rfl free (by omega) attempts held oldest
  have whole : (round.take terms key p payload).entries = round.entries.insert key q := rfl
  constructor
  · intro other
    rw [whole,held,sound.held]
  · intro other
    rw [whole,AList.mem_insert,sound.keys,or_iff_right_iff_imp]
    rintro rfl
    exact (sound.keys other).mp (Table.mem_of_lookup here)
  · rw [whole,weight_refill Pending.count here (congrArg List.length heldSame),sound.count]
  · rw [whole,weight_refill Pending.bytes here (by simp only [Pending.bytes,heldSame]),sound.size]
  · exact leases
  · rw [whole,busy,← busySame]
    rfl
  · change (insert key.1 round.busy).card = _ + (round.result ++ [a]).length
    rw [busySame,Finset.card_insert_of_notMem free,List.length_append,List.length_singleton,card]
    omega
  · change (round.result ++ [a]).length ≤ _
    rw [List.length_append,List.length_singleton]
    omega
  · intro b member
    rcases List.mem_append.mp member with old | new
    · obtain ⟨other,leased⟩ := sound.entered b old
      have differ : other ≠ key := by
        rintro rfl
        rw [attemptAt_of_lookup here,unleased] at leased
        exact nomatch leased
      exact ⟨other,by rw [whole,attempts,if_neg differ,leased]⟩
    · exact ⟨key,by rw [whole,attempts,if_pos rfl,List.mem_singleton.mp new]⟩
  · intro other b leased
    rw [whole,attempts] at leased
    split at leased
    · exact .inr (List.mem_append_right _ (List.mem_singleton.mpr (Option.some.inj leased).symm))
    · exact (sound.attempts other b leased).imp_right (List.mem_append_left _)
  · exact sound.later.trans (Nat.le_succ _)
  · intro b member
    have later := sound.later
    change _ ∧ b.id ≤ round.leaseId + 1
    rcases List.mem_append.mp member with old | new
    · have := sound.fresh b old
      omega
    · rw [List.mem_singleton.mp new]
      simp only
      omega
  · refine List.pairwise_append.mpr ⟨sound.ordered,List.pairwise_singleton _ _,fun b old c new => ?_⟩
    have := sound.fresh b old
    rw [List.mem_singleton.mp new]
    simp only
    omega

theorem Sound.visit {box : Outbox} {terms : Terms} {round : Round} (sound : Sound box terms round) {key : CookieKey}
    (member : key ∈ box.entries) (room : (busyAccounts box.entries).card + terms.limit ≤ box.policy.concurrent)
    (first : terms.oldest = oldest box.entries) :
    ∃ after, round.visit terms key = some after ∧ Sound box terms after ∧ after.order = round.order := by
  obtain ⟨p,here⟩ := Table.lookup_of_mem ((sound.keys key).mpr member)
  cases ready : p.ready with
  | none => exact ⟨round,by simp only [Round.visit,here,ready],sound,rfl⟩
  | some payload =>
    by_cases eligible : round.admits terms key p && round.fits terms key payload
    · have both := Bool.and_eq_true_iff.mp eligible
      exact ⟨round.take terms key p payload,by simp only [Round.visit,here,ready,eligible,if_true],
        sound.take here ready both.1 both.2 room first,rfl⟩
    · exact ⟨round,by simp only [Round.visit,here,ready,eligible,if_false,Bool.false_eq_true],sound,rfl⟩

/-- The loop never fails an unwrap and leaves the keys in the order it found them. -/
theorem Sound.loop {box : Outbox} {terms : Terms}
    (room : (busyAccounts box.entries).card + terms.limit ≤ box.policy.concurrent)
    (first : terms.oldest = oldest box.entries) (rest : List CookieKey) :
    ∀ (visited : List CookieKey) {round : Round}, Sound box terms round → round.order = rest ++ visited →
      (∀ key ∈ rest, key ∈ box.entries) →
      ∃ after, round.loop terms rest.length = some after ∧ Sound box terms after ∧ after.order = visited ++ rest := by
  induction rest with
  | nil =>
    intro visited round sound order _
    exact ⟨round,rfl,sound,by simpa using order⟩
  | cons key rest ih =>
    intro visited round sound order inside
    obtain ⟨mid,visit,midSound,midOrder⟩ :=
      (sound.reorder (rest ++ visited)).visit (inside key List.mem_cons_self) room first
    have next : ({ mid with order := mid.order ++ [key] } : Round).order = rest ++ (visited ++ [key]) := by
      simp only [midOrder,List.append_assoc]
    obtain ⟨after,run,afterSound,afterOrder⟩ :=
      ih _ (midSound.reorder _) next (fun other member => inside other (List.mem_cons_of_mem _ member))
    refine ⟨after,?_,afterSound,by rw [afterOrder,List.append_assoc,List.singleton_append]⟩
    rw [List.length_cons,Round.loop,order]
    simp only [List.cons_append,visit,Option.bind_some]
    exact run

end Round

theorem toBack_nodup {order : List CookieKey} (nodup : order.Nodup) (key : CookieKey) : (toBack order key).Nodup := by
  refine List.nodup_append.mpr ⟨nodup.filter _,List.nodup_singleton _,fun a inOrder b last => ?_⟩
  rw [List.mem_singleton.mp last]
  simpa using (List.mem_filter.mp inOrder).2

theorem mem_toBack {order : List CookieKey} {key other : CookieKey} (known : key ∈ order) :
    other ∈ toBack order key ↔ other ∈ order := by
  simp only [toBack,List.mem_append,List.mem_filter,bne_iff_ne,ne_eq,List.mem_singleton]
  constructor
  · rintro (⟨here,_⟩ | rfl)
    · exact here
    · exact known
  · intro here
    by_cases same : other = key
    · exact .inr same
    · exact .inl ⟨here,same⟩

/-- Moving known keys to the back only permutes the order. -/
theorem toBack_all (admitted : List Attempt) :
    ∀ {order : List CookieKey}, order.Nodup → (∀ a ∈ admitted, a.payload.key ∈ order) →
      (admitted.foldl (fun order a => toBack order a.payload.key) order).Nodup ∧
      ∀ key, key ∈ admitted.foldl (fun order a => toBack order a.payload.key) order ↔ key ∈ order := by
  induction admitted with
  | nil => exact fun nodup _ => ⟨nodup,fun _ => Iff.rfl⟩
  | cons a rest ih =>
    intro order nodup known
    have here := known a List.mem_cons_self
    obtain ⟨restNodup,same⟩ := ih (toBack_nodup nodup a.payload.key) fun b member =>
      (mem_toBack here).mpr (known b (List.mem_cons_of_mem _ member))
    exact ⟨restNodup,fun key => (same key).trans (mem_toBack here)⟩

end S2Script.Cookies

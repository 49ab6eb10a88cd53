import S2Script.InteropSchema
import S2Script.Multiplexer

/-! Forwards of an interface: what a response may say, and a transform's payload on its way through the
handlers. -/
namespace S2Script.Interop

open Multiplexer

variable {F : Type}

/-- Insert or replace, the other members where they were. -/
def insertMember (key : String) (value : Value F) : List (String × Value F) → List (String × Value F)
  | [] => [(key,value)]
  | (name,old) :: members => if name = key then (name,value) :: members else (name,old) :: insertMember key value members

def extendMembers (members patch : List (String × Value F)) : List (String × Value F) :=
  patch.foldl (fun members entry => insertMember entry.1 entry.2 members) members

/-- The UTF-16 code units of a string. -/
def encodeUtf16 (s : String) : List Nat := s.toList.flatMap fun c =>
  let n := c.toNat
  if n < 0x10000 then [n] else [0xD800 + (n - 0x10000) / 1024,0xDC00 + (n - 0x10000) % 1024]

structure Forward (F : Type) where
  kind : String
  payload : Schema F
  writable : Option (List String)
  distinct : payload.Distinct

namespace Forward

def wellFormed (forward : Forward F) : Bool :=
  if !forward.payload.wellFormed false 0 then false
  else match forward.writable,forward.payload with
    | none,_ => forward.kind == "notification" || forward.kind == "hook"
    | some keys,.object fields =>
      forward.kind == "transform" && keys.all (fun key => (fields.lookup key).isSome) &&
        (keys.zip keys.tail).all fun pair => encodeUtf16 pair.1 < encodeUtf16 pair.2
    | some _,_ => false

variable [HostFloat F]

/-- Only the four codes, without coercion. -/
def action (value : Value F) : Option HookResult :=
  value.asF64.bind fun code =>
    if HostFloat.eq code (HostFloat.ofInt 0) then some .continue
    else if HostFloat.eq code (HostFloat.ofInt 1) then some .changed
    else if HostFloat.eq code (HostFloat.ofInt 2) then some .handled
    else if HostFloat.eq code (HostFloat.ofInt 3) then some .stop
    else none

/-- The part of a transform's response that patches the payload, with `none` for a refusal. -/
def responsePatch (forward : Forward F) (result : HookResult) (value : Value F) : Option (List (String × Value F)) :=
  if result ≠ .changed then none
  else match value.asObject,forward.payload,forward.writable with
    | some patch,.object fields,some writable =>
      if patch.all fun entry => writable.contains entry.1 && (fields.lookup entry.1).any fun field => field.schema.accepts entry.2
      then some patch else none
    | _,_,_ => none

/-- The whole response is checked before any of its patch is used. -/
def response (forward : Forward F) (value : Value F) : Option (HookResult × Option (List (String × Value F))) :=
  if forward.kind = "hook" then (action value).map fun result => (result,none)
  else if forward.kind ≠ "transform" then none
  else match value.asObject with
    | none => none
    | some object =>
      if object.any fun member => member.1 ≠ "result" && member.1 ≠ "patch" then none
      else match (object.lookup "result").bind action with
        | none => none
        | some result => match object.lookup "patch" with
          | none => some (result,none)
          | some patch => (forward.responsePatch result patch).map fun patch => (result,some patch)

/-- What the dispatch makes of one handler's answer: an action and the next payload. The payload is read
back from its text, and checked again after a patch. -/
def advance (forward : Forward F) (reread : Value F → Value F) (payload : Value F) (answer : Option (Value F)) :
    Option (HookResult × Value F) :=
  match answer.bind forward.response with
  | none => none
  | some (result,none) => some (result,payload)
  | some (result,some patch) =>
    match (reread payload).asObject with
    | none => none
    | some members =>
      let updated := Value.object (extendMembers members patch)
      if forward.payload.accepts updated then some (result,updated) else none

/-- The payloads the handlers see one after another, the action and the payload handed back. -/
def transform (forward : Forward F) (reread : Value F → Value F) :
    Value F → HookResult → List (Option (Value F)) → List (Value F) × HookResult × Value F
  | payload,collapsed,[] => ([],collapsed,payload)
  | payload,collapsed,answer :: answers =>
    match forward.advance reread payload answer with
    | none =>
      let (seen,outcome) := forward.transform reread payload collapsed answers
      (payload :: seen,outcome)
    | some (result,updated) =>
      let collapsed := max collapsed result
      if result = .stop then ([payload],collapsed,updated)
      else
        let (seen,outcome) := forward.transform reread updated collapsed answers
        (payload :: seen,outcome)

end Forward

section Merge

theorem lookup_insertMember (key : String) (value : Value F) (members : List (String × Value F)) (name : String) :
    (insertMember key value members).lookup name = if name = key then some value else members.lookup name := by
  induction members with
  | nil => rw [insertMember,lookup_cons_if]
  | cons member members ih =>
    rw [insertMember]
    by_cases replaced : member.1 = key
    · rw [if_pos replaced,lookup_cons_if,lookup_cons_if,replaced]
      split <;> rfl
    · rw [if_neg replaced,lookup_cons_if,lookup_cons_if,ih]
      by_cases same : name = key
      · subst same
        rw [if_neg (Ne.symm replaced),if_pos rfl,if_pos rfl]
      · rw [if_neg same,if_neg same]

theorem forall_insertMember (known : String → Prop) {key : String} (value : Value F) {members : List (String × Value F)}
    (here : known key) (each : ∀ member ∈ members, known member.1) : ∀ member ∈ insertMember key value members, known member.1 := by
  induction members with
  | nil => simpa [insertMember] using here
  | cons member members ih =>
    have own := each member List.mem_cons_self
    have others : ∀ member ∈ members, known member.1 := fun m inside => each m (List.mem_cons_of_mem _ inside)
    rw [insertMember]
    split
    · exact List.forall_mem_cons.mpr ⟨own,others⟩
    · exact List.forall_mem_cons.mpr ⟨own,ih others⟩

variable [HostFloat F] {fields : List (String × Field (Schema F))} {members patch : List (String × Value F)}

theorem accepts_insertMember (distinct : (fields.map Prod.fst).Nodup) (accepted : (Schema.object fields).accepts (.object members) = true)
    {key : String} {field : Field (Schema F)} (found : fields.lookup key = some field) {value : Value F}
    (valid : field.schema.accepts value = true) : (Schema.object fields).accepts (.object (insertMember key value members)) = true := by
  obtain ⟨known,each⟩ := Schema.accepts_object_iff.mp accepted
  apply Schema.accepts_object_iff.mpr
  constructor
  · apply forall_insertMember (fun name => (fields.lookup name).isSome) value _ known
    rw [found]
    rfl
  · rintro ⟨name,other⟩ entry
    rw [lookup_insertMember]
    split
    · next same =>
      subst same
      obtain rfl : other = field := Option.some.inj ((lookup_of_mem distinct entry).symm.trans found)
      exact valid
    · exact each _ entry

/-- Each entry of the patch is accepted at its field, so the merged object is accepted. -/
theorem accepts_extendMembers (distinct : (fields.map Prod.fst).Nodup) (accepted : (Schema.object fields).accepts (.object members) = true)
    (each : ∀ entry ∈ patch, ∃ field, fields.lookup entry.1 = some field ∧ field.schema.accepts entry.2 = true) :
    (Schema.object fields).accepts (.object (extendMembers members patch)) = true := by
  induction patch generalizing members with
  | nil => exact accepted
  | cons entry patch ih =>
    obtain ⟨field,found,valid⟩ := each entry List.mem_cons_self
    exact ih (accepts_insertMember distinct accepted found valid) fun other inside => each other (List.mem_cons_of_mem _ inside)

omit [HostFloat F] in
theorem lookup_extendMembers {name : String} (outside : ∀ entry ∈ patch, entry.1 ≠ name) :
    (extendMembers members patch).lookup name = members.lookup name := by
  induction patch generalizing members with
  | nil => rfl
  | cons entry patch ih =>
    have other := outside entry List.mem_cons_self
    refine (ih fun next inside => outside next (List.mem_cons_of_mem _ inside)).trans ?_
    rw [lookup_insertMember,if_neg (Ne.symm other)]

end Merge

namespace Forward

variable {forward : Forward F}

theorem wellFormed_transform (formed : forward.wellFormed = true) (kind : forward.kind = "transform") :
    ∃ fields keys, forward.payload = .object fields ∧ forward.writable = some keys := by
  rw [wellFormed] at formed
  split at formed
  · cases formed
  split at formed
  · rw [kind] at formed
    exact absurd formed (by decide)
  · next keys fields writable payload => exact ⟨fields,keys,payload,writable⟩
  · cases formed

theorem distinct_fields {fields : List (String × Field (Schema F))} (payload : forward.payload = .object fields) :
    (fields.map Prod.fst).Nodup := by
  have distinct := forward.distinct
  rw [payload] at distinct
  exact distinct.1

variable [HostFloat F]

/-- A patch that is let through edits writable fields only, each with a value its field accepts. -/
theorem response_patch {fields : List (String × Field (Schema F))} {keys : List String} (payload : forward.payload = .object fields)
    (writable : forward.writable = some keys) {value : Value F} {result : HookResult} {patch : List (String × Value F)}
    (answered : forward.response value = some (result,some patch)) :
    ∀ entry ∈ patch, entry.1 ∈ keys ∧ ∃ field, fields.lookup entry.1 = some field ∧ field.schema.accepts entry.2 = true := by
  rw [response] at answered
  split at answered
  · obtain ⟨_,_,same⟩ := Option.map_eq_some_iff.mp answered
    cases same
  split at answered
  · cases answered
  split at answered
  · cases answered
  split at answered
  · cases answered
  split at answered
  · cases answered
  split at answered
  · cases answered
  · obtain ⟨edits,allowed,same⟩ := Option.map_eq_some_iff.mp answered
    obtain ⟨rfl,rfl⟩ : _ ∧ edits = patch := by simpa using same
    rw [responsePatch,payload,writable] at allowed
    split at allowed
    · cases allowed
    split at allowed
    · next edits' fields' keys' _ inFields inKeys =>
      cases inFields
      cases inKeys
      split at allowed
      · next each =>
        cases allowed
        intro entry member
        have here := List.all_eq_true.mp each entry member
        rw [Bool.and_eq_true,List.contains_iff_mem,Option.any_eq_true] at here
        exact here
      · cases allowed
    · cases allowed

/-- Whatever text the payload travels as, the next payload is the old one or one checked again. -/
theorem accepts_advance {reread : Value F → Value F} {payload : Value F} (accepted : forward.payload.accepts payload = true)
    {answer : Option (Value F)} {result : HookResult} {updated : Value F}
    (advanced : forward.advance reread payload answer = some (result,updated)) : forward.payload.accepts updated = true := by
  rw [advance] at advanced
  split at advanced
  · cases advanced
  · cases advanced
    exact accepted
  · split at advanced
    · cases advanced
    · simp only at advanced
      split at advanced
      · next checked =>
        cases advanced
        exact checked
      · cases advanced

theorem accepts_transform {reread : Value F → Value F} (answers : List (Option (Value F))) {payload : Value F} (collapsed : HookResult)
    (accepted : forward.payload.accepts payload = true) :
    (∀ seen ∈ (forward.transform reread payload collapsed answers).1, forward.payload.accepts seen = true) ∧
      forward.payload.accepts (forward.transform reread payload collapsed answers).2.2 = true := by
  induction answers generalizing payload collapsed with
  | nil => exact ⟨fun _ none => (nomatch none),accepted⟩
  | cons answer answers ih =>
    rw [transform]
    split
    · simp only
      exact ⟨List.forall_mem_cons.mpr ⟨accepted,(ih collapsed accepted).1⟩,(ih collapsed accepted).2⟩
    · next result updated advanced =>
      have next := accepts_advance accepted advanced
      simp only
      split
      · exact ⟨List.forall_mem_cons.mpr ⟨accepted,fun _ none => nomatch none⟩,next⟩
      · exact ⟨List.forall_mem_cons.mpr ⟨accepted,(ih _ next).1⟩,(ih _ next).2⟩

/-- A transform keeps its payload typed and its other keys as they were, and a typed direction without
entity references admits no envelope at any depth. -/
theorem transform_keeps_schema (forward : Forward F) (formed : forward.wellFormed = true) (kind : forward.kind = "transform") :
    (∃ fields keys, forward.payload = .object fields ∧ forward.writable = some keys ∧
      ∀ payload, forward.payload.accepts payload = true →
        (∀ value result patch, forward.response value = some (result,patch) → patch = none ∨
          ∃ members edits, payload = .object members ∧ patch = some edits ∧
            (∀ name, name ∉ keys → (extendMembers members edits).lookup name = members.lookup name) ∧
            forward.payload.accepts (.object (extendMembers members edits)) = true) ∧
        ∀ reread collapsed answers,
          (∀ seen ∈ (forward.transform reread payload collapsed answers).1, forward.payload.accepts seen = true) ∧
            forward.payload.accepts (forward.transform reread payload collapsed answers).2.2 = true) ∧
      ∀ (schema : Schema F) (allowVoid : Bool), schema.wellFormed allowVoid 0 = true → schema.entityRefFree = true →
        ∀ value : Value F, value.Distinct → schema.accepts value = true → value.mentions "__s2ref" = false := by
  constructor
  · obtain ⟨fields,keys,object,writable⟩ := wellFormed_transform formed kind
    refine ⟨fields,keys,object,writable,fun payload accepted => ⟨?_,fun reread collapsed answers => accepts_transform answers collapsed accepted⟩⟩
    intro value result patch answered
    cases patch with
    | none => exact .inl rfl
    | some edits =>
      rw [object] at accepted ⊢
      obtain ⟨members,rfl⟩ := Schema.object_of_accepts accepted
      have each := response_patch object writable answered
      refine .inr ⟨members,edits,rfl,rfl,fun name outside => ?_,?_⟩
      · exact lookup_extendMembers fun entry member same => outside (same ▸ (each entry member).1)
      · exact accepts_extendMembers (distinct_fields object) accepted fun entry member => (each entry member).2
  · intro schema allowVoid formed free value distinct accepted
    exact Schema.accepts_noRef schema formed free distinct accepted

section Format

/-- Integers stand for the floats next to them. -/
instance : HostFloat Int := ⟨fun a b => a == b,fun n => n⟩

/-- A chat line whose text the handlers may rewrite. -/
def onFormat : Forward Int where
  kind := "transform"
  payload := .object [("identity",⟨.number,false⟩),("text",⟨.string,false⟩)]
  writable := some ["text"]
  distinct := ⟨by decide,trivial,trivial,trivial⟩

def chatLine : Value Int := .object [("identity",.number (.posInt 7)),("text",.string "hello")]

theorem onFormat_keeps_schema :
    (∃ fields keys, onFormat.payload = .object fields ∧ onFormat.writable = some keys ∧
      ((∀ value result patch, onFormat.response value = some (result,patch) → patch = none ∨
          ∃ members edits, chatLine = .object members ∧ patch = some edits ∧
            (∀ name, name ∉ keys → (extendMembers members edits).lookup name = members.lookup name) ∧
            onFormat.payload.accepts (.object (extendMembers members edits)) = true)) ∧
        onFormat.payload.accepts (onFormat.transform id chatLine .continue
          [some (.object [("result",.number (.posInt 1)),("patch",.object [("text",.string "bye")])])]).2.2 = true) ∧
      chatLine.mentions "__s2ref" = false := by
  obtain ⟨⟨fields,keys,object,writable,each⟩,free⟩ := transform_keeps_schema onFormat (by decide +kernel) rfl
  obtain ⟨patches,chain⟩ := each chatLine (by decide +kernel)
  refine ⟨⟨fields,keys,object,writable,patches,(chain id .continue _).2⟩,?_⟩
  exact free onFormat.payload false (by decide +kernel) (by decide +kernel) chatLine
    ⟨by decide,trivial,trivial,trivial⟩ (by decide +kernel)

end Format

end Forward

end S2Script.Interop

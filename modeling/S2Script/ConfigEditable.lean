import S2Script.ConfigEdits
import S2Script.ConfigJson

/-! The generated default file can be edited: it reads back as the defaults, and another value in the
place of a declared one changes that value alone. -/
namespace S2Script.Config

open Interop Comments

variable {F : Type}

section Texts

theorem ordered_under (key : String) (f : ConfigEntry F → ConfigEntry F) {entries : List (String × ConfigEntry F)}
    (each : ∀ name entry, (name,entry) ∈ entries → ordered (f entry) = f (ordered entry)) :
    orderedEntries (under key f entries) = under key f (orderedEntries entries) := by
  have insert : ∀ (name : String) (entry : ConfigEntry F) (rest : List (String × ConfigEntry F)),
      under key f (rest.orderedInsert (fun a b => a.1 ≤ b.1) (name,entry)) =
        (under key f rest).orderedInsert (fun a b => a.1 ≤ b.1) (name,if name = key then f entry else entry) := by
    intro name entry rest
    induction rest with
    | nil => rfl
    | cons head rest ih =>
      simp only [under,List.map_cons,List.orderedInsert_cons] at ih ⊢
      split
      · rfl
      · rw [List.map_cons,ih]
  induction entries with
  | nil => simp [under,orderedEntries]
  | cons member entries ih =>
    obtain ⟨name,entry⟩ := member
    have later := ih fun other next inside => each other next (List.mem_cons_of_mem _ inside)
    rw [under,List.map_cons,← under,orderedEntries,orderedEntries,later]
    split
    · rfl
    · rw [insert]
      split
      · rw [each name entry List.mem_cons_self]
      · rfl

/-- An edit and the ordering of the levels do not disturb each other. -/
theorem ordered_withDefault (value : Value F) : ∀ (path : List String) (entry : ConfigEntry F),
    ordered (withDefault value path entry) = withDefault value path (ordered entry) := by
  intro path
  induction path with
  | nil =>
    intro entry
    cases entry <;> simp [withDefault,ordered]
  | cons key rest ih =>
    intro entry
    cases entry with
    | decl decl => simp [withDefault,ordered]
    | sect children => rw [withDefault,ordered,ordered,withDefault,ordered_under key (withDefault value rest) fun _ entry _ => ih entry]

theorem declAt_ordered : ∀ (path : List String) (entry : ConfigEntry F), declAt path (ordered entry) = declAt path entry := by
  intro path
  induction path with
  | nil =>
    intro entry
    cases entry <;> simp [declAt,ordered]
  | cons key rest ih =>
    intro entry
    cases entry with
    | decl decl => simp [declAt,ordered]
    | sect children =>
      rw [ordered,declAt,declAt,lookup_orderedEntries]
      split
      · rfl
      · cases children.lookup key with
        | none => rfl
        | some entry => exact ih entry

theorem keys_orderedEntries (entries : List (String × ConfigEntry F)) :
    ((orderedEntries entries).map Prod.fst).Perm ((entries.map Prod.fst).filter fun key => !dotted key) := by
  induction entries with
  | nil => rw [orderedEntries]; rfl
  | cons member entries ih =>
    obtain ⟨key,entry⟩ := member
    rw [orderedEntries,List.map_cons]
    split
    · next point =>
      rw [List.filter_cons_of_neg (by simp [point])]
      exact ih
    · next plain =>
      rw [List.filter_cons_of_pos (by simp [plain])]
      exact ((List.perm_orderedInsert _ _ _).map Prod.fst).trans (ih.cons key)

theorem distinct_insert {key : String} {entry : ConfigEntry F} (here : DistinctEntry entry) {entries : List (String × ConfigEntry F)}
    (distinct : DistinctEntries entries) : DistinctEntries (entries.orderedInsert (fun a b => a.1 ≤ b.1) (key,entry)) := by
  induction entries with
  | nil => exact ⟨here,distinct⟩
  | cons other entries ih =>
    rw [List.orderedInsert_cons]
    split
    · exact ⟨here,distinct⟩
    · exact ⟨distinct.1,ih distinct.2⟩

mutual

theorem distinct_ordered : (entry : ConfigEntry F) → DistinctEntry entry → DistinctEntry (ordered entry)
  | .decl _,_ => by
    rw [ordered]
    trivial
  | .sect children,distinct => by
    rw [ordered]
    exact ⟨(keys_orderedEntries children).nodup_iff.mpr (distinct.1.filter _),distinct_orderedEntries children distinct.2⟩

theorem distinct_orderedEntries : (entries : List (String × ConfigEntry F)) → DistinctEntries entries → DistinctEntries (orderedEntries entries)
  | [],_ => by
    rw [orderedEntries]
    trivial
  | (key,entry) :: rest,distinct => by
    rw [orderedEntries]
    have later := distinct_orderedEntries rest distinct.2
    split
    · exact later
    · exact distinct_insert (distinct_ordered entry distinct.1) later

end

/-- Under distinct keys one entry is edited. -/
theorem under_split {A : Type} {key : String} {held : A} {members : List (String × A)} (distinct : (members.map Prod.fst).Nodup)
    (found : members.lookup key = some held) :
    ∃ first second, ∀ f : A → A, under key f members = first ++ (key,f held) :: second := by
  obtain ⟨first,second,rfl,absent⟩ := List.lookup_eq_some_iff.mp found
  rw [List.map_append,List.map_cons] at distinct
  have apart := (List.nodup_append.mp distinct).2.1
  have kept : ∀ (f : A → A) (members : List (String × A)), (∀ member ∈ members, member.1 ≠ key) → under key f members = members := by
    intro f members other
    have same : ∀ member ∈ members, (fun member : String × A => (member.1,if member.1 = key then f member.2 else member.2)) member = id member := by
      intro member inside
      simp [other member inside]
    rw [under,List.map_congr_left same,List.map_id]
  refine ⟨first,second,fun f => ?_⟩
  have before := kept f first fun member inside same => by simpa [same] using absent member inside
  have after := kept f second fun member inside same => by
    have listed := @List.mem_map_of_mem _ _ _ _ Prod.fst inside
    exact (List.nodup_cons.mp apart).1 (same ▸ listed)
  rw [under] at before after ⊢
  rw [List.map_append,List.map_cons,before,after]
  simp

variable (json : SerdeJson F)

/-- The text of a level around one of its entries. -/
theorem genEntries_around (indent : Nat) (key : String) (first second : List (String × ConfigEntry F)) :
    ∃ before comma after, ∀ entry,
      genEntries json indent (first ++ (key,entry) :: second) = before ++ (genEntry json indent key comma entry ++ after) := by
  induction first with
  | nil => exact ⟨[],_,_,fun entry => by rw [List.nil_append,genEntries,List.nil_append]⟩
  | cons head first ih =>
    obtain ⟨name,other⟩ := head
    obtain ⟨before,comma,after,around⟩ := ih
    refine ⟨genEntry json indent name [','] other ++ before,comma,after,fun entry => ?_⟩
    have more : (first ++ (key,entry) :: second).isEmpty = false := by simp
    rw [List.cons_append,genEntries,around,more,List.append_assoc]
    rfl

/-- The text of an entry around a declared value in it. -/
theorem genEntry_around {decl : ConfigDecl F} : ∀ (path : List String) (entry : ConfigEntry F), DistinctEntry entry → declAt path entry = some decl →
    ∀ indent key comma, ∃ before after, ∀ value,
      genEntry json indent key comma (withDefault value path entry) = before ++ (json.toText value ++ after) := by
  intro path
  induction path with
  | nil =>
    intro entry _ found indent key comma
    cases entry with
    | sect children => cases found
    | decl other =>
      have commented : ∀ value, comment { other with default := value } = comment other := fun _ => rfl
      refine ⟨pad indent ++ comment other ++ ['\n'] ++ (pad indent ++ json.toText (.string key) ++ [':',' ']),comma ++ ['\n'],fun value => ?_⟩
      rw [withDefault,genEntry,commented]
      simp
  | cons name rest ih =>
    intro entry distinct found indent key comma
    cases entry with
    | decl other => cases found
    | sect children =>
      rw [declAt] at found
      split at found
      · cases found
      · obtain ⟨inner,held,deeper⟩ := Option.bind_eq_some_iff.mp found
        obtain ⟨first,second,edited⟩ := under_split distinct.1 held
        obtain ⟨before,inside,after,level⟩ := genEntries_around json (indent + 1) name first second
        obtain ⟨start,finish,around⟩ := ih inner (distinct.2.of_mem (mem_of_lookup held)) deeper (indent + 1) name inside
        refine ⟨pad indent ++ json.toText (.string key) ++ [':',' ','\x7b','\n'] ++ (before ++ start),
          finish ++ (after ++ (pad indent ++ ['\x7d'] ++ comma ++ ['\n'])),fun value => ?_⟩
        rw [withDefault,genEntry,edited,level,around]
        simp

end Texts

section Editable

/-- The JSON library reads the value back from its own text. -/
def ReadsBack (json : SerdeJson F) (value : Value F) : Prop := json.fromText (json.toText value) = some value

theorem comment_withDefault (p : Text → Prop) (value : Value F) : ∀ (path : List String) (entry : ConfigEntry F),
    DeclaredEntry (fun decl => p (comment decl)) entry → DeclaredEntry (fun decl => p (comment decl)) (withDefault value path entry) := by
  intro path
  induction path with
  | nil =>
    intro entry here
    cases entry <;> exact here
  | cons key rest ih =>
    intro entry here
    cases entry with
    | decl decl => exact here
    | sect children =>
      have each : ∀ entries : List (String × ConfigEntry F), Declared (fun decl => p (comment decl)) entries →
          Declared (fun decl => p (comment decl)) (under key (withDefault value rest) entries) := by
        intro entries
        induction entries with
        | nil => exact id
        | cons member entries later =>
          rintro ⟨first,others⟩
          refine ⟨fun plain => ?_,later others⟩
          split
          · exact ih _ (first plain)
          · exact first plain
      exact each children here

theorem withDefault_same {decl : ConfigDecl F} : ∀ (path : List String) (entry : ConfigEntry F), DistinctEntry entry →
    declAt path entry = some decl → withDefault decl.default path entry = entry := by
  intro path
  induction path with
  | nil =>
    intro entry _ found
    cases entry with
    | sect children => cases found
    | decl other =>
      cases found
      rw [withDefault]
  | cons key rest ih =>
    intro entry distinct found
    cases entry with
    | decl other => cases found
    | sect children =>
      rw [declAt] at found
      split at found
      · cases found
      · obtain ⟨inner,held,deeper⟩ := Option.bind_eq_some_iff.mp found
        have same := ih inner (distinct.2.of_mem (mem_of_lookup held)) deeper
        have each : ∀ member ∈ children,
            (fun member : String × ConfigEntry F => (member.1,if member.1 = key then withDefault decl.default rest member.2 else member.2)) member = id member := by
          rintro ⟨name,entry⟩ inside
          simp only [id]
          split
          · next here =>
            subst here
            rw [lookup_of_mem distinct.1 inside] at held
            cases held
            rw [same]
          · rfl
        rw [withDefault,under,List.map_congr_left each,List.map_id]

variable {json : SerdeJson F}

/-- The stripped file is read as the compact text of its defaults is. -/
theorem file_reads (laws : json.Laws) {entries : List (String × ConfigEntry F)} (neutral : Declared Neutral entries)
    (reads : ReadsBack json (.object (defaults entries))) :
    json.fromText (stripLineComments (generateDefaultJsonc json entries)) = some (.object (defaults entries)) := by
  rw [laws.spaces _ _ (file_text laws (kept_orderedEntries entries neutral))]
  exact reads

/-- The generated file around the place of a declared value. -/
theorem file_around {entries : List (String × ConfigEntry F)} (distinct : DistinctEntry (.sect entries)) {key : String} {rest : List String}
    {decl : ConfigDecl F} (found : declAt (key :: rest) (.sect entries) = some decl) :
    ∃ before after, ∀ value, generateDefaultJsonc json (under key (withDefault value rest) entries) = before ++ (json.toText value ++ after) := by
  have kept := declAt_ordered (key :: rest) (.sect entries)
  rw [found,ordered,declAt] at kept
  split at kept
  · cases kept
  · obtain ⟨inner,held,deeper⟩ := Option.bind_eq_some_iff.mp kept
    have order := distinct_ordered _ distinct
    rw [ordered] at order
    obtain ⟨first,second,edited⟩ := under_split order.1 held
    obtain ⟨start,comma,finish,level⟩ := genEntries_around json 1 key first second
    obtain ⟨before,after,around⟩ := genEntry_around json rest inner (order.2.of_mem (mem_of_lookup held)) deeper 1 key comma
    refine ⟨['\x7b','\n'] ++ start ++ before,after ++ finish ++ ['\x7d','\n'],fun value => ?_⟩
    have moved := ordered_under key (withDefault value rest) fun name entry (_ : (name,entry) ∈ entries) => ordered_withDefault value rest entry
    rw [generateDefaultJsonc,moved,edited,level,around]
    simp

variable [RangeFloat F]

theorem values_read {text : Text} {entries : List (String × ConfigEntry F)} {members : List (String × Value F)}
    (reads : json.fromText (stripLineComments text) = some (.object members)) :
    (materializeConfig json entries (some text)).values = valuesOf members [] entries := by
  rw [materializeConfig,materializeEntries_values]
  simp [reads,Value.asObject]

theorem values_none (entries : List (String × ConfigEntry F)) : (materializeConfig json entries none).values = valuesOf [] [] entries := by
  rw [materializeConfig,materializeEntries_values]
  rfl

/-- What the generated file of a block is for: it reads back as the defaults, changes nothing, and another
value in the place of a declared one changes that value alone. -/
structure Editable (json : SerdeJson F) (entries : List (String × ConfigEntry F)) : Prop where
  shows : ∃ members, json.fromText (stripLineComments (generateDefaultJsonc json entries)) = some (.object members) ∧
    Shows (.sect entries) (.object members)
  same : (materializeConfig json entries (some (generateDefaultJsonc json entries))).values = (materializeConfig json entries none).values
  edits : ∀ key rest decl, declAt (key :: rest) (.sect entries) = some decl → ∃ before after,
    generateDefaultJsonc json entries = before ++ (json.toText decl.default ++ after) ∧
      ∀ value, valueMatchesType value decl.type = true → satisfiesConstraints value decl = true →
        ReadsBack json (.object (defaults (under key (withDefault value rest) entries))) →
        generateDefaultJsonc json (under key (withDefault value rest) entries) = before ++ (json.toText value ++ after) ∧
          .object (materializeConfig json entries (some (before ++ (json.toText value ++ after)))).values =
            putAt value (key :: rest) (.object (materializeConfig json entries none).values)

/-- Where the further lines of every comment are neutral and the defaults are read back, the generated file can be edited. -/
theorem file_editable (laws : json.Laws) {entries : List (String × ConfigEntry F)} (distinct : DistinctEntry (.sect entries))
    (neutral : Declared Neutral entries) (reads : ReadsBack json (.object (defaults entries))) : Editable json entries where
  shows := by
    have shown := shows_defaultOf (.sect entries)
    rw [defaultOf_sect] at shown
    exact ⟨_,file_reads laws neutral reads,shown⟩
  same := by
    have kept := entry_same (.sect entries) distinct
    rw [defaultOf_sect,valueOf_sect,valueOf] at kept
    rw [values_read (file_reads laws neutral reads),values_none]
    exact Value.object.inj kept
  edits := by
    intro key rest decl found
    obtain ⟨before,after,around⟩ := @file_around _ json _ distinct _ _ _ found
    have unchanged := withDefault_same (key :: rest) (.sect entries) distinct found
    rw [withDefault,ConfigEntry.sect.injEq] at unchanged
    refine ⟨before,after,by rw [← around decl.default,unchanged],fun value fits allowed readsEdited => ⟨around value,?_⟩⟩
    have commented : Declared Neutral (under key (withDefault value rest) entries) :=
      comment_withDefault NeutralComment value (key :: rest) (.sect entries) neutral
    have edited := entry_edited fits allowed (key :: rest) (.sect entries) distinct found
    rw [withDefault,defaultOf_sect,valueOf_sect,valueOf] at edited
    rw [← around value,values_read (file_reads laws commented readsEdited),values_none]
    exact edited

def sampleDecl (type : String) (default : Value Int) (description : Option String) : ConfigDecl Int :=
  ⟨type,default,description,none,none,none⟩

/-- A block with a section and this description of a declaration in it. -/
def sampleBlock (description : String) : List (String × ConfigEntry Int) :=
  [("limits",.sect [("slots",.decl (sampleDecl "int" (.number (.posInt 5)) (some description)))]),
    ("hello",.decl (sampleDecl "string" (.string "hi") none))]

def sampleText : Text :=
  ['\x7b','\x22','h','e','l','l','o','\x22',':','\x22','h','i','\x22',',','\x22','l','i','m','i','t','s','\x22',':',
    '\x7b','\x22','s','l','o','t','s','\x22',':','5','\x7d','\x7d']

theorem sample_reads (description : String) : ReadsBack wholeJson (.object (defaults (sampleBlock description))) := by
  have values : defaults (sampleBlock description) = [("hello",.string "hi"),("limits",.object [("slots",.number (.posInt 5))])] := by
    have plain : dotted "limits" = false ∧ dotted "slots" = false ∧ dotted "hello" = false := by decide
    have order : ¬"limits" ≤ "hello" := by decide
    simp [defaults,sampleBlock,sampleDecl,orderedEntries,ordered,plain,order,defaultsOf,defaultOf]
  have written : dropSpaces false (writeValue (.object [("hello",.string "hi"),("limits",.object [("slots",.number (.posInt 5))])])) = sampleText := by
    decide +kernel
  have parsed : Json.parse sampleText = some (.object [(['h','e','l','l','o'],.string ['h','i']),
      (['l','i','m','i','t','s'],.object [(['s','l','o','t','s'],.natural 5)])]) := rfl
  rw [ReadsBack,values,wholeJson]
  simp only [written,parsed,Option.map_some]
  simp [ofJson,ofMembers]

theorem sample_distinct (description : String) : DistinctEntry (.sect (sampleBlock description)) := by
  simp [DistinctEntry,DistinctEntries,sampleBlock]

theorem sample_editable : Declared Neutral (sampleBlock "who // waits") ∧ Editable wholeJson (sampleBlock "who // waits") := by
  have neutral : Declared Neutral (sampleBlock "who // waits") := by
    simp [Declared,DeclaredEntry,Neutral,NeutralComment,sampleBlock,sampleDecl,comment,lines]
  exact ⟨neutral,file_editable wholeJson_laws (sample_distinct _) neutral (sample_reads _)⟩

/-- A line feed in a description takes the rest of it out of the comment. -/
theorem second_line_breaks : DistinctEntry (.sect (sampleBlock "slots\nper team")) ∧
    ReadsBack wholeJson (.object (defaults (sampleBlock "slots\nper team"))) ∧ ¬Editable wholeJson (sampleBlock "slots\nper team") := by
  refine ⟨sample_distinct _,sample_reads _,fun editable => ?_⟩
  have refused : (wholeJson.fromText (stripLineComments (generateDefaultJsonc wholeJson (sampleBlock "slots\nper team")))).isNone = true := by
    decide +kernel
  obtain ⟨members,read,_⟩ := editable.shows
  rw [read] at refused
  cases refused

end Editable

end S2Script.Config

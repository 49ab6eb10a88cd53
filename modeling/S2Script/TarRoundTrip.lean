import S2Script.Tar

/-! What is packed is read back: each header names its path, its mode and its size, and its sum is right;
and a path is refused only if it fits no header. -/
namespace S2Script.Tar

open ByteFields

section Texts

@[simp] theorem utf8_nil : utf8 [] = [] := rfl

@[simp] theorem utf8_append (a b : Text) : utf8 (a ++ b) = utf8 a ++ utf8 b := List.flatMap_append

theorem utf8_slash (rest : Text) : utf8 ('/' :: rest) = 47 :: utf8 rest := rfl

theorem zero_mem_encoded {c : Char} (member : 0 ∈ String.utf8EncodeChar c) : c = '\x00' := by
  have byte : ∀ n, (0 : UInt8) = UInt8.ofNat n → n % 256 = 0 := fun n same => by
    simpa using (congrArg UInt8.toNat same).symm
  apply Char.toNat_inj.mp
  simp only [String.utf8EncodeChar] at member
  split at member
  · next small =>
    have zero := byte _ (List.mem_singleton.mp member)
    change c.val.toNat = 0
    omega
  · split at member
    · simp only [List.mem_cons,List.not_mem_nil,or_false] at member
      rcases member with same | same <;> have zero := byte _ same <;> omega
    · split at member
      · simp only [List.mem_cons,List.not_mem_nil,or_false] at member
        rcases member with same | same | same <;> have zero := byte _ same <;> omega
      · simp only [List.mem_cons,List.not_mem_nil,or_false] at member
        rcases member with same | same | same | same <;> have zero := byte _ same <;> omega

theorem utf8_no_zero {text : Text} (clean : '\x00' ∉ text) : ∀ b ∈ utf8 text, b ≠ 0 := by
  rintro b member rfl
  obtain ⟨c,inside,encoded⟩ := List.mem_flatMap.mp member
  exact clean (zero_mem_encoded encoded ▸ inside)

theorem utf8_eq_nil {text : Text} : utf8 text = [] ↔ text = [] := by
  refine ⟨fun none => ?_,fun none => none ▸ rfl⟩
  cases text with
  | nil => rfl
  | cons c rest => exact absurd (List.append_eq_nil_iff.mp none).1 String.utf8EncodeChar_ne_nil

theorem decode_utf8 (text : Text) : decode (utf8 text) = some text := by
  have decoded : (utf8 text).toByteArray.utf8Decode? = some text.toArray := List.utf8Decode?_utf8Encode
  simp only [decode,decoded,Option.map_some]

theorem utf8_ascii {digits : Text} (ascii : ∀ c ∈ digits, c.toNat < 128) : utf8 digits = digits.map byte := by
  induction digits with
  | nil => rfl
  | cons c rest ih =>
    have one : String.utf8EncodeChar c = [byte c] := if_pos (Nat.le_of_lt_succ (ascii c List.mem_cons_self))
    have later := ih fun d member => ascii d (List.mem_cons_of_mem c member)
    exact congrArg₂ (· ++ ·) one later

/-- A field of text up to its first zero byte. -/
theorem cString_padded {text : Text} (clean : '\x00' ∉ text) (count : Nat) :
    cString (utf8 text ++ List.replicate count 0) = utf8 text := by
  have whole : ∀ b ∈ utf8 text, decide (b ≠ 0) = true := fun b member => decide_eq_true (utf8_no_zero clean b member)
  have none : (List.replicate count (0 : UInt8)).takeWhile (fun b => decide (b ≠ 0)) = [] := by
    cases count <;> rfl
  simp only [cString,List.takeWhile_append_of_pos whole,none,List.append_nil]

end Texts

section Paths

/-- The two parts of a path that a header has room for. -/
structure Divides (path : Text) (parts : UstarPath) : Prop where
  joined : path = parts.prefixPart ++ '/' :: parts.name
  prefixFits : (utf8 parts.prefixPart).length ≤ 155
  named : parts.name ≠ []
  nameFits : (utf8 parts.name).length ≤ 100

/-- A path that no header has room for. -/
def TooLong (path : Text) : Prop := 100 < (utf8 path).length ∧ ∀ parts, ¬Divides path parts

theorem splitAtSlash_some : ∀ (rest front : Text) (parts : UstarPath), splitAtSlash front rest = some parts →
    Divides (front ++ rest) parts
  | [],_,_,found => by cases found
  | c :: rest,front,parts,found => by
    have later : splitAtSlash (front ++ [c]) rest = some parts → Divides (front ++ c :: rest) parts := fun found => by
      simpa using splitAtSlash_some rest (front ++ [c]) parts found
    simp only [splitAtSlash] at found
    split at found
    · next slash =>
      subst slash
      split at found
      · cases found
      · next room =>
        split at found
        · next fits =>
          cases found
          exact ⟨rfl,Nat.le_of_not_lt room,fits.1,fits.2⟩
        · exact later found
    · exact later found

/-- Where the loop finds nothing, no later slash divides the path. -/
theorem splitAtSlash_none : ∀ (rest front : Text), splitAtSlash front rest = none →
    ∀ between name, rest = between ++ '/' :: name → ¬Divides (front ++ rest) ⟨name,front ++ between⟩
  | [],_,_,between,name,split,_ => by simp at split
  | c :: rest,front,found,between,name,split,divides => by
    simp only [splitAtSlash] at found
    cases between with
    | nil =>
      obtain ⟨rfl,rfl⟩ := List.cons.inj split
      have room := divides.prefixFits
      simp only [List.append_nil] at room
      have fits : rest ≠ [] ∧ (utf8 rest).length ≤ 100 := ⟨divides.named,divides.nameFits⟩
      simp only [if_true,if_neg (Nat.not_lt.mpr room),if_pos fits,reduceCtorEq] at found
    | cons d between =>
      obtain ⟨rfl,rest'⟩ := List.cons.inj split
      have later : splitAtSlash (front ++ [c]) rest = none → False := fun found => by
        have deeper := splitAtSlash_none rest (front ++ [c]) found between name rest'
        simp only [List.append_assoc,List.singleton_append] at deeper
        exact deeper divides
      split at found
      · split at found
        · next full =>
          have room := divides.prefixFits
          simp only [utf8_append,List.length_append] at room
          omega
        · split at found
          · cases found
          · exact later found
      · exact later found

/-- A path is put whole into the name, or at a slash into both fields, and refused if it fits neither way. -/
theorem splitUstarPath_ok {path : Text} {parts : UstarPath} (found : splitUstarPath path = .ok parts) :
    ((utf8 path).length ≤ 100 ∧ parts = ⟨path,[]⟩) ∨ Divides path parts := by
  simp only [splitUstarPath] at found
  split at found
  · next short =>
    cases found
    exact .inl ⟨short,rfl⟩
  · split at found
    · next parts' divided =>
      cases found
      exact .inr (splitAtSlash_some path [] parts divided)
    · cases found

theorem splitUstarPath_error (path : Text) : (∃ why, splitUstarPath path = .error why) ↔ TooLong path := by
  simp only [splitUstarPath,TooLong]
  by_cases short : (utf8 path).length ≤ 100
  · simp only [if_pos short,reduceCtorEq,exists_false,false_iff]
    exact fun long => absurd long.1 (Nat.not_lt.mpr short)
  · simp only [if_neg short]
    cases found : splitAtSlash [] path with
    | some parts =>
      simp only [reduceCtorEq,exists_false,false_iff]
      exact fun long => long.2 parts (splitAtSlash_some path [] parts found)
    | none =>
      simp only [Except.error.injEq,exists_eq',true_iff]
      refine ⟨Nat.lt_of_not_le short,fun parts divides => ?_⟩
      exact splitAtSlash_none path [] found parts.prefixPart parts.name divides.joined divides

end Paths

section Headers

theorem bind_ok {α β : Type} {x : Except String α} {f : α → Except String β} {b : β} (made : x >>= f = .ok b) :
    ∃ a, x = .ok a ∧ f a = .ok b := by
  cases x with
  | error why => cases made
  | ok a => exact ⟨a,rfl,made⟩

/-- A write of some bytes into a field of a header. -/
structure Wrote (header header' bytes : Bytes) (offset size : Nat) : Prop where
  fits : bytes.length ≤ size
  length : header'.length = header.length
  own : field header' offset size = bytes ++ (field header offset size).drop bytes.length
  beside : ∀ start count, start + count ≤ offset ∨ offset + size ≤ start →
    field header' start count = field header start count

theorem wrote {header bytes : Bytes} {offset size : Nat} (inside : offset + size ≤ header.length)
    (fits : bytes.length ≤ size) : Wrote header (write header bytes offset) bytes offset size := by
  have within : offset + bytes.length ≤ header.length := by omega
  refine ⟨fits,write_length within,field_write_self within fits,fun start count apart => ?_⟩
  exact field_write_other within (by omega)

theorem writeString_ok {header header' : Bytes} {value : Text} {offset size : Nat}
    (inside : offset + size ≤ header.length) (done : writeString header value offset size = .ok header') :
    Wrote header header' (utf8 value) offset size := by
  simp only [writeString] at done
  split at done
  · cases done
  · next fits =>
    cases done
    exact wrote inside (Nat.le_of_not_lt fits)

/-- The bytes of an octal field, its terminator included. -/
def octalBytes (value size : Nat) : Bytes := (octalDigits value (size - 1)).map byte ++ [0]

theorem utf8_octal (value size : Nat) (tail : Text) :
    utf8 (octalDigits value size ++ tail) = (octalDigits value size).map byte ++ utf8 tail := by
  have ascii : ∀ c ∈ octalDigits value size, c.toNat < 128 := fun c member =>
    Nat.lt_of_le_of_lt (octalDigits_octal value size member).2 (by decide)
  simp only [utf8_append,utf8_ascii ascii]

/-- An octal field is written if its number fits, and is filled by it. -/
theorem writeOctal_iff {header header' : Bytes} {value offset size : Nat} (room : 2 ≤ size) :
    writeOctal header value offset size = .ok header' ↔
      value < 8 ^ (size - 1) ∧ header' = write header (octalBytes value size) offset := by
  have text : utf8 (octalDigits value (size - 1) ++ ['\x00']) = octalBytes value size := utf8_octal value (size - 1) _
  have length : (octalBytes value size).length = (octalDigits value (size - 1)).length + 1 := by simp [octalBytes]
  have digits := Nat.length_toDigits_le_iff (b := 8) (n := value) (k := size - 1) (by decide) (by omega)
  simp only [writeOctal,writeString,text]
  by_cases small : value < 8 ^ (size - 1)
  · have filled := octalDigits_length small (by omega)
    have fits : ¬size < (octalBytes value size).length := by omega
    simp only [if_neg fits,Except.ok.injEq,small,true_and,eq_comm]
  · have long : size < (octalBytes value size).length := by
      have more : (octalDigits value (size - 1)).length ≥ (Nat.toDigits 8 value).length := by
        simp only [octalDigits,List.length_leftpad]
        omega
      omega
    simp only [if_pos long,reduceCtorEq,small,false_and]

theorem octalBytes_length {value size : Nat} (room : 2 ≤ size) (small : value < 8 ^ (size - 1)) :
    (octalBytes value size).length = size := by
  have filled := octalDigits_length small (by omega)
  simp only [octalBytes,List.length_append,List.length_map,filled,List.length_singleton]
  omega

theorem writeOctal_ok {header header' : Bytes} {value offset size : Nat} (room : 2 ≤ size)
    (inside : offset + size ≤ header.length) (done : writeOctal header value offset size = .ok header') :
    value < 8 ^ (size - 1) ∧ Wrote header header' (octalBytes value size) offset size := by
  obtain ⟨small,rfl⟩ := (writeOctal_iff room).mp done
  exact ⟨small,wrote inside (Nat.le_of_eq (octalBytes_length room small))⟩

/-- A field that is written whole. -/
theorem Wrote.filled {header header' bytes : Bytes} {offset size : Nat} (w : Wrote header header' bytes offset size)
    (whole : bytes.length = size) : field header' offset size = bytes := by
  have none : (field header offset size).drop bytes.length = [] :=
    List.drop_eq_nil_of_le (by simp only [field,List.length_take]; omega)
  simpa only [none,List.append_nil] using w.own

/-- A field of text in a header that was zero there. -/
theorem Wrote.padded {header header' bytes : Bytes} {offset size : Nat} (w : Wrote header header' bytes offset size)
    (zero : field header offset size = List.replicate size 0) :
    field header' offset size = bytes ++ List.replicate (size - bytes.length) 0 := by
  simpa only [zero,List.drop_replicate] using w.own

/-- The fields of a header before its sum is in it. -/
structure Laid (file : TarFile) (parts : UstarPath) (header : Bytes) : Prop where
  length : header.length = 512
  name : field header 0 100 = utf8 parts.name ++ List.replicate (100 - (utf8 parts.name).length) 0
  mode : field header 100 8 = octalBytes (file.mode.getD 0o644) 8
  size : field header 124 12 = octalBytes file.content.length 12
  sum : field header 148 8 = spaces
  type : field header 156 1 = [48]
  magic : field header 257 6 = [117,115,116,97,114,0]
  version : field header 263 2 = [48,48]
  prefixPart : field header 345 155 = utf8 parts.prefixPart ++ List.replicate (155 - (utf8 parts.prefixPart).length) 0

theorem unsummedHeader_ok {file : TarFile} {mtime : Nat} {header : Bytes}
    (done : unsummedHeader file mtime = .ok header) :
    mtime < 8 ^ 11 ∧ ∃ parts, splitUstarPath file.path = .ok parts ∧ Laid file parts header := by
  obtain ⟨parts,divided,done⟩ := bind_ok done
  obtain ⟨h1,w1,done⟩ := bind_ok done
  obtain ⟨h2,w2,done⟩ := bind_ok done
  obtain ⟨h3,w3,done⟩ := bind_ok done
  obtain ⟨h4,w4,done⟩ := bind_ok done
  obtain ⟨h5,w5,done⟩ := bind_ok done
  obtain ⟨h6,w6,done⟩ := bind_ok done
  obtain ⟨h9,w9,done⟩ := bind_ok done
  obtain ⟨h10,w10,done⟩ := bind_ok done
  have l0 : (List.replicate 512 (0 : UInt8)).length = 512 := List.length_replicate
  have w1 := writeString_ok (by omega) w1
  have l1 := w1.length.trans l0
  obtain ⟨small2,w2⟩ := writeOctal_ok (by decide) (by omega) w2
  have l2 := w2.length.trans l1
  obtain ⟨-,w3⟩ := writeOctal_ok (by decide) (by omega) w3
  have l3 := w3.length.trans l2
  obtain ⟨-,w4⟩ := writeOctal_ok (by decide) (by omega) w4
  have l4 := w4.length.trans l3
  obtain ⟨small5,w5⟩ := writeOctal_ok (by decide) (by omega) w5
  have l5 := w5.length.trans l4
  obtain ⟨small6,w6⟩ := writeOctal_ok (by decide) (by omega) w6
  have l6 := w6.length.trans l5
  have w7 : Wrote h6 (write h6 spaces 148) spaces 148 8 := wrote (by omega) (by decide)
  have l7 := w7.length.trans l6
  have w8 : Wrote (write h6 spaces 148) (write (write h6 spaces 148) [48] 156) [48] 156 1 := wrote (by omega) (by decide)
  have l8 := w8.length.trans l7
  have w9 := writeString_ok (by omega) w9
  have l9 := w9.length.trans l8
  have w10 := writeString_ok (by omega) w10
  have l10 := w10.length.trans l9
  have w11 := writeString_ok (by omega) done
  have zero : ∀ start count, start + count ≤ 512 →
      field (List.replicate 512 (0 : UInt8)) start count = List.replicate count 0 := by
    intro start count inside
    simp only [field,List.drop_replicate,List.take_replicate]
    congr 1
    omega
  refine ⟨small6,parts,divided,w11.length.trans l10,?_,?_,?_,?_,?_,?_,?_,?_⟩
  · simp (disch := omega) only [w11.beside,w10.beside,w9.beside,w8.beside,w7.beside,w6.beside,w5.beside,w4.beside,
      w3.beside,w2.beside]
    exact w1.padded (zero 0 100 (by decide))
  · simp (disch := omega) only [w11.beside,w10.beside,w9.beside,w8.beside,w7.beside,w6.beside,w5.beside,w4.beside,
      w3.beside]
    exact w2.filled (octalBytes_length (by decide) small2)
  · simp (disch := omega) only [w11.beside,w10.beside,w9.beside,w8.beside,w7.beside,w6.beside]
    exact w5.filled (octalBytes_length (by decide) small5)
  · simp (disch := omega) only [w11.beside,w10.beside,w9.beside,w8.beside]
    exact w7.filled rfl
  · simp (disch := omega) only [w11.beside,w10.beside,w9.beside]
    exact w8.filled rfl
  · simp (disch := omega) only [w11.beside,w10.beside]
    exact w9.filled rfl
  · simp (disch := omega) only [w11.beside]
    exact w10.filled rfl
  · apply w11.padded
    simp (disch := omega) only [w10.beside,w9.beside,w8.beside,w7.beside,w6.beside,w5.beside,w4.beside,w3.beside,
      w2.beside,w1.beside]
    exact zero 345 155 (by decide)

theorem byteSum_le : ∀ header : Bytes, byteSum header ≤ 255 * header.length
  | [] => Nat.le_refl 0
  | b :: rest => by
    have later := byteSum_le rest
    have first := b.toNat_lt
    simp only [byteSum,List.map_cons,List.sum_cons,List.length_cons] at later ⊢
    omega

/-- The bytes of a checksum. -/
def sumBytes (sum : Nat) : Bytes := (octalDigits sum 6).map byte ++ [0,32]

/-- A header is the unsummed one with its sum. -/
theorem tarHeader_ok {file : TarFile} {mtime : Nat} {header : Bytes} (done : tarHeader file mtime = .ok header) :
    ∃ parts unsummed, splitUstarPath file.path = .ok parts ∧ Laid file parts unsummed ∧
      (sumBytes (byteSum unsummed)).length = 8 ∧ header = write unsummed (sumBytes (byteSum unsummed)) 148 := by
  obtain ⟨unsummed,made,done⟩ := bind_ok done
  obtain ⟨-,parts,divided,laid⟩ := unsummedHeader_ok made
  have bound := byteSum_le unsummed
  simp only [laid.length] at bound
  have small : byteSum unsummed < 8 ^ 6 := by omega
  have filled := octalDigits_length small (by decide)
  have length : (sumBytes (byteSum unsummed)).length = 8 := by
    simp only [sumBytes,List.length_append,List.length_map,filled,List.length_cons,List.length_nil]
  have text : utf8 (octalDigits (byteSum unsummed) 6 ++ ['\x00',' ']) = sumBytes (byteSum unsummed) :=
    utf8_octal (byteSum unsummed) 6 _
  have room : ¬8 < (sumBytes (byteSum unsummed)).length := by omega
  simp only [writeString,text,if_neg room,Except.ok.injEq] at done
  exact ⟨parts,unsummed,divided,laid,length,done.symm⟩

/-- A path that an archive can name. -/
structure Sound (path : Text) : Prop where
  nonempty : path ≠ []
  clean : '\x00' ∉ path
  relative : path.head? ≠ some '/'

/-- The fields of a header name its path. -/
theorem joinPath_parts {path : Text} {parts : UstarPath} (sound : Sound path) (divided : splitUstarPath path = .ok parts) :
    joinPath (utf8 parts.name) (utf8 parts.prefixPart) = utf8 path ∧
      '\x00' ∉ parts.name ∧ '\x00' ∉ parts.prefixPart := by
  rcases splitUstarPath_ok divided with ⟨-,rfl⟩ | divides
  · exact ⟨rfl,sound.clean,List.not_mem_nil⟩
  · have joined := divides.joined
    have filled : utf8 parts.prefixPart ≠ [] := fun none => by
      simp only [utf8_eq_nil.mp none,List.nil_append] at joined
      exact sound.relative (joined ▸ rfl)
    have clean := sound.clean
    simp only [joined,List.mem_append,List.mem_cons,not_or] at clean
    refine ⟨?_,clean.2.2,clean.1⟩
    simp only [joinPath,if_neg filled,joined,utf8_append,utf8_slash]

/-- A packed header is read back. -/
theorem readHeader_tarHeader {file : TarFile} {mtime : Nat} {header : Bytes} (sound : Sound file.path)
    (done : tarHeader file mtime = .ok header) :
    header.length = 512 ∧ field header 156 1 = [48] ∧
      readHeader header = some ⟨file.path,file.mode.getD 0o644,file.content.length⟩ := by
  obtain ⟨parts,unsummed,divided,laid,eight,rfl⟩ := tarHeader_ok done
  have inside : 148 + (sumBytes (byteSum unsummed)).length ≤ unsummed.length := by
    simp only [eight,laid.length]
    decide
  have w : Wrote unsummed (write unsummed (sumBytes (byteSum unsummed)) 148) (sumBytes (byteSum unsummed)) 148 8 :=
    wrote (by simp only [laid.length]; decide) (Nat.le_of_eq eight)
  have sum : checksum (write unsummed (sumBytes (byteSum unsummed)) 148) = byteSum unsummed := by
    have back : write unsummed spaces 148 = unsummed := write_field (by simp only [laid.length]; decide) laid.sum
    have wide : spaces.length = (sumBytes (byteSum unsummed)).length := eight.symm
    simp only [checksum,write_write inside wide,back]
  have summed : readOctal (field (write unsummed (sumBytes (byteSum unsummed)) 148) 148 8) =
      some (byteSum unsummed) := by
    simp only [w.filled eight]
    exact readOctal_octalDigits 0 (.inl rfl) [32]
  obtain ⟨joined,cleanName,cleanPrefix⟩ := joinPath_parts sound divided
  refine ⟨w.length.trans laid.length,?_,?_⟩
  · simp (disch := omega) only [w.beside,laid.type]
  · have octal : ∀ value size, readOctal (octalBytes value size) = some value := fun value size =>
      readOctal_octalDigits 0 (.inl rfl) []
    simp (disch := omega) only [readHeader,w.length,laid.length,summed,sum,w.beside,laid.type,laid.magic,laid.version,
      and_self,if_true,laid.name,laid.prefixPart,cString_padded cleanName,cString_padded cleanPrefix,joined,decode_utf8,
      laid.mode,laid.size,octal]
    rfl

end Headers

section Archives

def TarFile.entry (file : TarFile) : Entry := ⟨file.path,file.mode.getD 0o644,file.content⟩

/-- The blocks of the files are read back, with whatever ends the archive. -/
theorem readFiles_packFiles (mtime : Nat) : ∀ (files : List TarFile) (blocks : Bytes) (fuel : Nat),
    (∀ file ∈ files, Sound file.path) → packFiles mtime files = .ok blocks → files.length < fuel →
    readFiles fuel (blocks ++ List.replicate 1024 0) = some (files.map TarFile.entry) ∧ files.length ≤ blocks.length
  | [],blocks,fuel + 1,_,packed,_ => by
    cases packed
    have ended : (List.replicate 1024 (0 : UInt8)).take 1024 = List.replicate 1024 0 :=
      List.take_of_length_le (Nat.le_of_eq List.length_replicate)
    exact ⟨if_pos ended,Nat.le_refl 0⟩
  | file :: rest,blocks,fuel + 1,sound,packed,enough => by
    obtain ⟨header,made,packed⟩ := bind_ok packed
    obtain ⟨later,packedRest,packed⟩ := bind_ok packed
    cases packed
    obtain ⟨length,type,read⟩ := readHeader_tarHeader (sound file List.mem_cons_self) made
    obtain ⟨tail,many⟩ := readFiles_packFiles mtime rest later fuel
      (fun other member => sound other (List.mem_cons_of_mem file member)) packedRest (Nat.lt_of_succ_lt_succ enough)
    have body : (header ++ file.content ++ List.replicate (padLen file.content.length) 0 ++ later ++
        List.replicate 1024 0).drop 512 =
        file.content ++ (List.replicate (padLen file.content.length) 0 ++ (later ++ List.replicate 1024 0)) := by
      simp only [List.append_assoc,List.drop_left' length]
    have first : (header ++ file.content ++ List.replicate (padLen file.content.length) 0 ++ later ++
        List.replicate 1024 0).take 512 = header := by
      simp only [List.append_assoc,List.take_left' length]
    -- a header has a type, so it does not look like the end
    have busy : (header ++ file.content ++ List.replicate (padLen file.content.length) 0 ++ later ++
        List.replicate 1024 0).take 1024 ≠ List.replicate 1024 0 := by
      intro blank
      have typed : header[156]? = some 48 := by
        have single := congrArg (·[0]?) type
        simpa only [getElem?_field,if_pos Nat.zero_lt_one,Nat.add_zero,List.getElem?_cons_zero] using single
      have zero := congrArg (·[156]?) blank
      have within : 156 < header.length := by omega
      simp only [List.getElem?_take,List.append_assoc,List.getElem?_append_left within,typed,List.getElem?_replicate] at zero
      exact absurd zero (by decide)
    have rest' : (file.content ++ (List.replicate (padLen file.content.length) 0 ++
        (later ++ List.replicate 1024 0))).drop (file.content.length + padLen file.content.length) =
        later ++ List.replicate 1024 0 := by
      simp only [← List.drop_drop,List.drop_left,List.drop_left' List.length_replicate]
    have room : ¬(file.content ++ (List.replicate (padLen file.content.length) 0 ++
        (later ++ List.replicate 1024 (0 : UInt8)))).length < file.content.length := by
      simp only [List.length_append]
      omega
    constructor
    · simp only [readFiles,if_neg busy,first,read,body,if_neg room,rest',tail,List.take_left,Option.map_some]
      rfl
    · simp only [List.length_append,List.length_cons,length]
      omega

/-- What is packed is what is read. -/
theorem readTar_packTar (files : List TarFile) (mtime : Nat) (archive : Bytes)
    (sound : ∀ file ∈ files, Sound file.path) (packed : packTar files mtime = .ok archive) :
    readTar archive = some (files.map TarFile.entry) := by
  obtain ⟨blocks,blocked,done⟩ := bind_ok packed
  cases done
  have enough : files.length < (blocks ++ List.replicate 1024 (0 : UInt8)).length := by
    have many := (readFiles_packFiles mtime files blocks (files.length + 1) sound blocked (Nat.lt_succ_self _)).2
    simp only [List.length_append,List.length_replicate]
    omega
  exact (readFiles_packFiles mtime files blocks _ sound blocked enough).1

end Archives

section Refusals

theorem ok_bind {α β : Type} (a : α) (f : α → Except String β) : (Except.ok a >>= f) = f a := rfl

theorem writeString_fits {value : Text} {size : Nat} (fits : (utf8 value).length ≤ size) (header : Bytes) (offset : Nat) :
    writeString header value offset size = .ok (write header (utf8 value) offset) :=
  if_neg (Nat.not_lt.mpr fits)

theorem writeOctal_fits {value size : Nat} (room : 2 ≤ size) (small : value < 8 ^ (size - 1)) (header : Bytes)
    (offset : Nat) : writeOctal header value offset size = .ok (write header (octalBytes value size) offset) :=
  (writeOctal_iff room).mpr ⟨small,rfl⟩

/-- A file whose length and mode a header has room for. -/
structure Numbered (file : TarFile) : Prop where
  content : file.content.length < 8 ^ 11
  mode : file.mode.getD 0o644 < 8 ^ 7

theorem unsummedHeader_fits {file : TarFile} {mtime : Nat} (numbered : Numbered file) (time : mtime < 8 ^ 11)
    {parts : UstarPath} (divided : splitUstarPath file.path = .ok parts) :
    ∃ header, unsummedHeader file mtime = .ok header := by
  have sizes : (utf8 parts.name).length ≤ 100 ∧ (utf8 parts.prefixPart).length ≤ 155 := by
    rcases splitUstarPath_ok divided with ⟨short,rfl⟩ | divides
    · exact ⟨short,Nat.zero_le _⟩
    · exact ⟨divides.nameFits,divides.prefixFits⟩
  have mode : file.mode.getD 0o644 < 8 ^ (8 - 1) := numbered.mode
  have content : file.content.length < 8 ^ (12 - 1) := numbered.content
  have time : mtime < 8 ^ (12 - 1) := time
  have none : 0 < 8 ^ (8 - 1) := by decide
  have magic : (utf8 ['u','s','t','a','r','\x00']).length ≤ 6 := by decide
  have version : (utf8 ['0','0']).length ≤ 2 := by decide
  have room : 2 ≤ 8 ∧ 2 ≤ 12 := by decide
  simp only [unsummedHeader,divided,ok_bind,writeString_fits sizes.1,writeString_fits sizes.2,writeString_fits magic,
    writeString_fits version,writeOctal_fits room.1 mode,writeOctal_fits room.1 none,writeOctal_fits room.2 content,
    writeOctal_fits room.2 time]
  exact ⟨_,rfl⟩

/-- A header is refused for its path, or for a time past its field. -/
theorem tarHeader_ok_iff {file : TarFile} {mtime : Nat} (numbered : Numbered file) :
    (∃ header, tarHeader file mtime = .ok header) ↔ ¬TooLong file.path ∧ mtime < 8 ^ 11 := by
  constructor
  · rintro ⟨header,done⟩
    obtain ⟨unsummed,made,-⟩ := bind_ok done
    obtain ⟨time,parts,divided,-⟩ := unsummedHeader_ok made
    refine ⟨fun long => ?_,time⟩
    obtain ⟨why,refused⟩ := (splitUstarPath_error file.path).mpr long
    cases refused.symm.trans divided
  · rintro ⟨short,time⟩
    cases divided : splitUstarPath file.path with
    | error why => exact absurd ((splitUstarPath_error file.path).mp ⟨why,divided⟩) short
    | ok parts =>
      obtain ⟨unsummed,made⟩ := unsummedHeader_fits numbered time divided
      obtain ⟨-,_,_,laid⟩ := unsummedHeader_ok made
      have bound := byteSum_le unsummed
      simp only [laid.length] at bound
      have small : byteSum unsummed < 8 ^ 6 := by omega
      have filled := octalDigits_length small (by decide)
      have fits : (utf8 (octalDigits (byteSum unsummed) 6 ++ ['\x00',' '])).length ≤ 8 := by
        simp only [utf8_octal,List.length_append,List.length_map,filled]
        decide
      simp only [tarHeader,made,ok_bind,writeString_fits fits]
      exact ⟨_,rfl⟩

theorem packFiles_ok_iff (mtime : Nat) : ∀ files : List TarFile, (∀ file ∈ files, Numbered file) →
    ((∃ blocks, packFiles mtime files = .ok blocks) ↔
      ∀ file ∈ files, ¬TooLong file.path ∧ mtime < 8 ^ 11)
  | [],_ => by simp [packFiles]
  | file :: rest,numbered => by
    have first : (∃ header, tarHeader file mtime = .ok header) ↔ ¬TooLong file.path ∧ mtime < 8 ^ 11 :=
      tarHeader_ok_iff (numbered file List.mem_cons_self)
    have later := packFiles_ok_iff mtime rest fun other member => numbered other (List.mem_cons_of_mem file member)
    simp only [List.forall_mem_cons,← first,← later]
    constructor
    · rintro ⟨blocks,packed⟩
      obtain ⟨header,made,packed⟩ := bind_ok packed
      obtain ⟨blocks',packedRest,-⟩ := bind_ok packed
      exact ⟨⟨header,made⟩,⟨blocks',packedRest⟩⟩
    · rintro ⟨⟨header,made⟩,⟨blocks',packedRest⟩⟩
      simp only [packFiles,made,packedRest,ok_bind]
      exact ⟨_,rfl⟩

/-- `packTar` refuses the paths that no header has room for, and a time past its field. -/
theorem packTar_error_iff (files : List TarFile) (mtime : Nat) (numbered : ∀ file ∈ files, Numbered file) :
    (∃ why, packTar files mtime = .error why) ↔ ∃ file ∈ files, TooLong file.path ∨ 8 ^ 11 ≤ mtime := by
  have packed : (∃ archive, packTar files mtime = .ok archive) ↔ ∃ blocks, packFiles mtime files = .ok blocks := by
    constructor
    · rintro ⟨archive,done⟩
      obtain ⟨blocks,packed,-⟩ := bind_ok done
      exact ⟨blocks,packed⟩
    · rintro ⟨blocks,packed⟩
      simp only [packTar,packed,ok_bind]
      exact ⟨_,rfl⟩
  have opposite : (∃ why, packTar files mtime = .error why) ↔ ¬∃ archive, packTar files mtime = .ok archive := by
    cases packTar files mtime <;> simp
  simp only [opposite,packed,packFiles_ok_iff mtime files numbered,not_forall,not_and_or,not_not,Nat.not_lt,
    exists_prop]

/-- The manifest of a packed plugin. -/
def manifest : TarFile := ⟨"package/a.json".toList,[123,125],none⟩

end Refusals

end S2Script.Tar

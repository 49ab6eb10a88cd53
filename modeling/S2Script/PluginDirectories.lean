import Mathlib

/-! The directory of a plugin's overrides: the id in letters of six bits each, written by an
accumulator that keeps growing. Host and shim write the same name, and no two ids share one. -/
namespace S2Script.PluginDirectories

structure Accumulator where
  encoded : List Char
  value : UInt32
  bits : Nat

section Encoding

variable (table : List Char)

/-- The letter of the low six bits. -/
def letter (value : UInt32) : Char := table.getD (value &&& 63).toNat '\x00'

/-- The inner loop: every six bits that are there give a letter. -/
def drain (encoded : List Char) (value : UInt32) (bits : Nat) : Accumulator :=
  if 6 ≤ bits then drain (encoded ++ [letter table (value >>> UInt32.ofNat (bits - 6))]) value (bits - 6)
  else ⟨encoded,value,bits⟩
termination_by bits

/-- One byte of the id. -/
def push (a : Accumulator) (byte : UInt8) : Accumulator :=
  drain table a.encoded (a.value <<< 8 ||| byte.toUInt32) (a.bits + 8)

/-- The letters of an id behind `id-`. -/
def encode (id : List UInt8) : List Char :=
  let a := id.foldl (push table) ⟨['i','d','-'],0,0⟩
  if 0 < a.bits then a.encoded ++ [letter table (a.value <<< UInt32.ofNat (6 - a.bits))] else a.encoded

end Encoding

/-- `plugin_directory` of the host. -/
def pluginDirectory (owner : List UInt8) : List Char :=
  encode "ABCDEFGHIJKLMNOPQRSTUVWXYZabcdefghijklmnopqrstuvwxyz0123456789-_".toList owner

/-- `PluginDirectory` of the shim. -/
def PluginDirectory (id : List UInt8) : List Char :=
  encode "ABCDEFGHIJKLMNOPQRSTUVWXYZabcdefghijklmnopqrstuvwxyz0123456789-_".toList id

section Numbers

/-- The number that digits spell, the first one highest. -/
def number (b : Nat) (digits : List Nat) : Nat := Nat.ofDigits b digits.reverse

@[simp] theorem number_nil (b : Nat) : number b [] = 0 := rfl

@[simp] theorem number_snoc (b : Nat) (digits : List Nat) (d : Nat) :
    number b (digits ++ [d]) = number b digits * b + d := by
  rw [number,List.reverse_append,List.reverse_singleton,List.singleton_append,Nat.ofDigits_cons,number]
  ring

theorem number_inj {b : Nat} (base : 1 < b) {l m : List Nat} (length : l.length = m.length) (left : ∀ d ∈ l, d < b)
    (right : ∀ d ∈ m, d < b) (same : number b l = number b m) : l = m := by
  have reversed := Nat.ofDigits_inj_of_len_eq base (by simpa using length) (by simpa using left) (by simpa using right) same
  simpa using reversed

end Numbers

section Letters

variable {table : List Char}

/-- What the accumulator holds after some bytes: letters, and the bits that are not in them yet. -/
structure Spells (table : List Char) (bytes : List UInt8) (digits : List Nat) (a : Accumulator) : Prop where
  encoded : a.encoded = ['i','d','-'] ++ digits.map fun d => table.getD d '\x00'
  small : ∀ d ∈ digits, d < 64
  length : digits.length * 6 + a.bits = bytes.length * 8
  number : number 64 digits * 2 ^ a.bits + a.value.toNat % 2 ^ a.bits = number 256 (bytes.map UInt8.toNat)

theorem and_63 (value : UInt32) : (value &&& 63).toNat = value.toNat % 64 := by
  rw [UInt32.toNat_and]
  exact Nat.and_two_pow_sub_one_eq_mod _ 6

/-- The bits that are shifted down are the high ones of those that count. -/
theorem shifted {value : UInt32} {bits : Nat} (enough : 6 ≤ bits) (few : bits < 32) :
    (value >>> UInt32.ofNat (bits - 6) &&& 63).toNat = value.toNat % 2 ^ bits / 2 ^ (bits - 6) := by
  have small : (UInt32.ofNat (bits - 6)).toNat = bits - 6 := by
    rw [UInt32.toNat_ofNat',Nat.mod_eq_of_lt (by omega)]
  have power : 2 ^ bits = 2 ^ (bits - 6) * 64 := by
    rw [show (64 : Nat) = 2 ^ 6 from rfl,← Nat.pow_add]
    congr 1
    omega
  have count : (bits - 6) % 32 = bits - 6 := Nat.mod_eq_of_lt (by omega)
  rw [and_63,UInt32.toNat_shiftRight,small,count,Nat.shiftRight_eq_div_pow,power,Nat.mod_mul_right_div_self]

/-- The last letter is filled up with zero bits. -/
theorem filled {value : UInt32} {bits : Nat} (few : bits < 6) (some : 0 < bits) :
    (value <<< UInt32.ofNat (6 - bits) &&& 63).toNat = value.toNat % 2 ^ bits * 2 ^ (6 - bits) := by
  have small : (UInt32.ofNat (6 - bits)).toNat = 6 - bits := by
    rw [UInt32.toNat_ofNat',Nat.mod_eq_of_lt (by omega)]
  have count : (6 - bits) % 32 = 6 - bits := Nat.mod_eq_of_lt (by omega)
  have power : 64 = 2 ^ bits * 2 ^ (6 - bits) := by
    rw [← Nat.pow_add,show bits + (6 - bits) = 6 by omega]
  rw [and_63,UInt32.toNat_shiftLeft,small,count,Nat.shiftLeft_eq,Nat.mod_mod_of_dvd _ (by decide),power,Nat.mul_mod_mul_right]

/-- A digit takes six of the bits that are not in the letters yet. -/
theorem digit_split (v bits : Nat) (enough : 6 ≤ bits) :
    v % 2 ^ bits / 2 ^ (bits - 6) < 64 ∧
      v % 2 ^ bits = v % 2 ^ bits / 2 ^ (bits - 6) * 2 ^ (bits - 6) + v % 2 ^ (bits - 6) := by
  have power : 2 ^ bits = 2 ^ (bits - 6) * 64 := by
    rw [show (64 : Nat) = 2 ^ 6 from rfl,← Nat.pow_add]
    congr 1
    omega
  have low : v % 2 ^ bits % 2 ^ (bits - 6) = v % 2 ^ (bits - 6) := Nat.mod_mod_of_dvd v ⟨64,power⟩
  constructor
  · rw [Nat.div_lt_iff_lt_mul (Nat.two_pow_pos _),Nat.mul_comm,← power]
    exact Nat.mod_lt _ (Nat.two_pow_pos _)
  · rw [← low]
    exact (Nat.div_add_mod' _ _).symm

theorem Spells.drain {bytes : List UInt8} {value : UInt32} {encoded : List Char} {bits : Nat} {digits : List Nat}
    (few : bits < 32) (spells : Spells table bytes digits ⟨encoded,value,bits⟩) :
    ∃ digits, Spells table bytes digits (drain table encoded value bits) ∧ (drain table encoded value bits).bits < 6 := by
  induction encoded,bits using drain.induct table value generalizing digits with
  | case1 encoded bits enough ih =>
    rw [PluginDirectories.drain,if_pos enough]
    obtain ⟨small,split⟩ := digit_split value.toNat bits enough
    have more : bits - 6 < 32 := by omega
    refine ih more (show Spells table bytes (digits ++ [value.toNat % 2 ^ bits / 2 ^ (bits - 6)]) _ from ?_)
    exact {
      encoded := by
        have before : encoded = _ := spells.encoded
        rw [List.map_append,← List.append_assoc,← before,List.map_singleton,← shifted enough few]
        rfl
      small := by
        intro d member
        rcases List.mem_append.mp member with old | new
        · exact spells.small d old
        · rw [List.mem_singleton.mp new]
          exact small
      length := by
        have length := spells.length
        simp only [List.length_append,List.length_singleton] at length ⊢
        omega
      number := by
        have power : 2 ^ bits = 64 * 2 ^ (bits - 6) := by
          rw [show (64 : Nat) = 2 ^ 6 from rfl,← Nat.pow_add]
          congr 1
          omega
        have total := spells.number
        dsimp only at total ⊢
        rw [number_snoc,Nat.add_mul,Nat.mul_assoc,← power,Nat.add_assoc,← split]
        exact total }
  | case2 encoded bits enough =>
    rw [PluginDirectories.drain,if_neg enough]
    exact ⟨digits,spells,Nat.not_le.mp enough⟩

/-- A byte below the bits that are there. -/
theorem appended (value : UInt32) (byte : UInt8) {bits : Nat} (few : bits ≤ 24) :
    (value <<< 8 ||| byte.toUInt32).toNat % 2 ^ (bits + 8) = value.toNat % 2 ^ bits * 256 + byte.toNat := by
  have low : byte.toNat < 2 ^ 8 := byte.toNat_lt
  have down : value.toNat % 2 ^ 24 % 2 ^ bits = value.toNat % 2 ^ bits := Nat.mod_mod_of_dvd _ (Nat.pow_dvd_pow 2 few)
  have moved : (value <<< 8).toNat = (value.toNat % 2 ^ 24) <<< 8 := by
    rw [UInt32.toNat_shiftLeft,Nat.shiftLeft_eq,Nat.shiftLeft_eq]
    exact Nat.mul_mod_mul_right (2 ^ 8) _ (2 ^ 24)
  have front : (value.toNat % 2 ^ 24 * 2 ^ 8 + byte.toNat) / 2 ^ 8 = value.toNat % 2 ^ 24 := by omega
  have back : (value.toNat % 2 ^ 24 * 2 ^ 8 + byte.toNat) % 2 ^ 8 = byte.toNat := by omega
  rw [UInt32.toNat_or,moved,UInt8.toNat_toUInt32,← Nat.shiftLeft_add_eq_or_of_lt low,Nat.shiftLeft_eq,
    Nat.add_comm bits 8,Nat.pow_add,Nat.mod_mul,front,back,down]
  omega

theorem Spells.push {bytes : List UInt8} {a : Accumulator} {digits : List Nat} (few : a.bits < 6)
    (spells : Spells table bytes digits a) (byte : UInt8) :
    ∃ digits, Spells table (bytes ++ [byte]) digits (push table a byte) ∧ (push table a byte).bits < 6 := by
  refine Spells.drain (by omega) (show Spells table (bytes ++ [byte]) digits _ from ?_)
  exact {
    encoded := spells.encoded
    small := spells.small
    length := by
      have length := spells.length
      simp only [List.length_append,List.length_singleton]
      omega
    number := by
      have total := spells.number
      dsimp only
      rw [appended a.value byte (by omega),List.map_append,List.map_singleton,number_snoc,← total,Nat.pow_add]
      ring }

theorem fold_spells (table : List Char) (id : List UInt8) :
    ∃ digits, Spells table id digits (id.foldl (push table) ⟨['i','d','-'],0,0⟩) ∧
      (id.foldl (push table) ⟨['i','d','-'],0,0⟩).bits < 6 := by
  induction id using List.reverseRecOn with
  | nil => exact ⟨[],⟨rfl,nofun,rfl,rfl⟩,Nat.zero_lt_succ 5⟩
  | append_singleton bytes byte ih =>
    obtain ⟨digits,spells,few⟩ := ih
    rw [List.foldl_append]
    exact spells.push few byte

/-- The letters of an id are the number that its bytes spell, filled up to a whole letter. -/
theorem encode_spells (table : List Char) (id : List UInt8) :
    ∃ digits fill, encode table id = ['i','d','-'] ++ digits.map (fun d => table.getD d '\x00') ∧
      (∀ d ∈ digits, d < 64) ∧ fill < 6 ∧ digits.length * 6 = id.length * 8 + fill ∧
      number 64 digits = number 256 (id.map UInt8.toNat) * 2 ^ fill := by
  obtain ⟨digits,spells,few⟩ := fold_spells table id
  unfold encode
  dsimp only
  generalize id.foldl (push table) ⟨['i','d','-'],0,0⟩ = a at spells few
  have length := spells.length
  have total := spells.number
  split
  · rename_i rest
    have digit : _ = a.value.toNat % 2 ^ a.bits * 2 ^ (6 - a.bits) := filled (by omega) rest
    have less : a.value.toNat % 2 ^ a.bits * 2 ^ (6 - a.bits) < 64 := by
      rw [← digit,and_63]
      exact Nat.mod_lt _ (by decide)
    refine ⟨digits ++ [a.value.toNat % 2 ^ a.bits * 2 ^ (6 - a.bits)],6 - a.bits,?_,?_,by omega,?_,?_⟩
    · rw [List.map_append,← List.append_assoc,← spells.encoded,List.map_singleton,← digit]
      rfl
    · intro d member
      rcases List.mem_append.mp member with old | new
      · exact spells.small d old
      · rw [List.mem_singleton.mp new]
        exact less
    · simp only [List.length_append,List.length_singleton]
      omega
    · have power : 64 = 2 ^ a.bits * 2 ^ (6 - a.bits) := by
        rw [← Nat.pow_add,show a.bits + (6 - a.bits) = 6 by omega]
      rw [number_snoc,← total,Nat.add_mul,Nat.mul_assoc,← power]
  · rename_i rest
    have none : a.bits = 0 := by omega
    rw [none] at length total
    refine ⟨digits,0,spells.encoded,spells.small,by omega,by omega,?_⟩
    simpa [Nat.mod_one] using total

end Letters

section Names

def standard : List Char := "ABCDEFGHIJKLMNOPQRSTUVWXYZabcdefghijklmnopqrstuvwxyz0123456789-_".toList

theorem standard_spec : standard.length = 64 ∧ standard.Nodup ∧
    ∀ c ∈ standard, c.isAlphanum = true ∨ c = '-' ∨ c = '_' := by
  have members : standard.all (fun c => c.isAlphanum || (c = '-' || c = '_')) = true := rfl
  refine ⟨rfl,by decide,fun c inside => ?_⟩
  simpa using List.all_eq_true.1 members c inside

theorem letters_undo (digits : List Nat) (small : ∀ d ∈ digits, d < 64) :
    (digits.map fun d => standard.getD d '\x00').map standard.idxOf = digits := by
  obtain ⟨size,distinct,_⟩ := standard_spec
  have each : ∀ d ∈ digits, (standard.idxOf ∘ fun d => standard.getD d '\x00') d = id d := by
    intro d member
    have bound : d < standard.length := by
      rw [size]
      exact small d member
    rw [Function.comp_apply,List.getD_eq_getElem _ _ bound]
    exact distinct.idxOf_getElem d bound
  rw [List.map_map,List.map_congr_left each,List.map_id]

/-- Ids with the same letters are equal. -/
theorem encode_injective {id id' : List UInt8} (same : encode standard id = encode standard id') : id = id' := by
  obtain ⟨digits,fill,letters,small,few,length,total⟩ := encode_spells standard id
  obtain ⟨digits',fill',letters',small',few',length',total'⟩ := encode_spells standard id'
  obtain ⟨size,distinct,_⟩ := standard_spec
  rw [letters,letters',List.append_cancel_left_eq] at same
  have equal : digits = digits' := by
    rw [← letters_undo digits small,same,letters_undo digits' small']
  subst equal
  have sizes : id.length = id'.length := by omega
  have fills : fill = fill' := by omega
  subst fills
  have numbers : number 256 (id.map UInt8.toNat) = number 256 (id'.map UInt8.toNat) :=
    Nat.eq_of_mul_eq_mul_right (Nat.two_pow_pos fill) (total.symm.trans total')
  have bounded : ∀ id : List UInt8, ∀ d ∈ id.map UInt8.toNat, d < 256 := by
    intro id d member
    obtain ⟨byte,_,rfl⟩ := List.mem_map.mp member
    exact byte.toNat_lt
  have bytes := number_inj (by decide) (by simpa using sizes) (bounded id) (bounded id') numbers
  exact List.map_injective_iff.mpr (fun _ _ => UInt8.toNat_inj.mp) bytes

/-- Host and shim give an id the same name, in characters that no path treats specially, and no two
ids the same one. -/
theorem directories_apart (id : List UInt8) :
    pluginDirectory id = PluginDirectory id ∧
    (∃ letters, pluginDirectory id = ['i','d','-'] ++ letters ∧
      ∀ c ∈ letters, c.isAlphanum = true ∨ c = '-' ∨ c = '_') ∧
    ∀ id', pluginDirectory id = pluginDirectory id' → id = id' := by
  obtain ⟨digits,fill,letters,small,_⟩ := encode_spells standard id
  refine ⟨rfl,⟨_,letters,?_⟩,fun id' same => encode_injective same⟩
  intro c member
  obtain ⟨d,inside,rfl⟩ := List.mem_map.mp member
  have bound : d < standard.length := by
    rw [standard_spec.1]
    exact small d inside
  rw [List.getD_eq_getElem _ _ bound]
  exact standard_spec.2.2 _ (List.getElem_mem bound)

end Names

end S2Script.PluginDirectories

import S2Script.EngineCopyArena

/-! The byte check of copied strings accepts exactly the UTF-8 encodings of texts without a NUL. -/
namespace S2Script.EngineCopyArena

theorem continued_cons {count cp : Nat} {next : UInt8} {rest : List UInt8} :
    continued (count + 1) cp (next :: rest) =
      if next.toNat / 64 = 2 then continued count (cp * 64 + next.toNat % 64) rest else none := rfl

/-- Ranges of the leading byte. -/
theorem leading_eq_some {b count minimum bits : Nat} (found : leading b = some (count,minimum,bits)) :
    (0xc2 ≤ b ∧ b ≤ 0xdf ∧ count = 1 ∧ minimum = 0x80 ∧ bits = b % 32) ∨
      (0xe0 ≤ b ∧ b ≤ 0xef ∧ count = 2 ∧ minimum = 0x800 ∧ bits = b % 16) ∨
      (0xf0 ≤ b ∧ b ≤ 0xf4 ∧ count = 3 ∧ minimum = 0x10000 ∧ bits = b % 8) := by
  rw [leading] at found
  split_ifs at found with two three four
  · cases found
    exact .inl ⟨two.1,two.2,rfl,rfl,rfl⟩
  · cases found
    exact .inr (.inl ⟨three.1,three.2,rfl,rfl,rfl⟩)
  · cases found
    exact .inr (.inr ⟨four.1,four.2,rfl,rfl,rfl⟩)

section Encoded

variable {c : Char}

theorem encoded_one (small : c.toNat ≤ 0x7f) : String.utf8EncodeChar c = [UInt8.ofNat c.toNat] :=
  if_pos small

theorem encoded_two (above : 0x7f < c.toNat) (small : c.toNat ≤ 0x7ff) :
    String.utf8EncodeChar c = [UInt8.ofNat (c.toNat / 64 % 0x20 + 0xc0),UInt8.ofNat (c.toNat % 0x40 + 0x80)] := by
  have one : ¬c.val.toNat ≤ 0x7f := Nat.not_le.mpr above
  exact (if_neg one).trans (if_pos small)

theorem encoded_three (above : 0x7ff < c.toNat) (small : c.toNat ≤ 0xffff) :
    String.utf8EncodeChar c =
      [UInt8.ofNat (c.toNat / 4096 % 0x10 + 0xe0),UInt8.ofNat (c.toNat / 64 % 0x40 + 0x80),UInt8.ofNat (c.toNat % 0x40 + 0x80)] := by
  have one : ¬c.val.toNat ≤ 0x7f := Nat.not_le.mpr (Nat.lt_trans (by decide) above)
  have two : ¬c.val.toNat ≤ 0x7ff := Nat.not_le.mpr above
  exact (if_neg one).trans ((if_neg two).trans (if_pos small))

theorem encoded_four (above : 0xffff < c.toNat) :
    String.utf8EncodeChar c =
      [UInt8.ofNat (c.toNat / 262144 % 0x08 + 0xf0),UInt8.ofNat (c.toNat / 4096 % 0x40 + 0x80),
        UInt8.ofNat (c.toNat / 64 % 0x40 + 0x80),UInt8.ofNat (c.toNat % 0x40 + 0x80)] := by
  have one : ¬c.val.toNat ≤ 0x7f := Nat.not_le.mpr (Nat.lt_trans (by decide) above)
  have two : ¬c.val.toNat ≤ 0x7ff := Nat.not_le.mpr (Nat.lt_trans (by decide) above)
  have three : ¬c.val.toNat ≤ 0xffff := Nat.not_le.mpr above
  exact (if_neg one).trans ((if_neg two).trans (if_neg three))

theorem scalar (c : Char) : c.toNat < 0xd800 ∨ 0xdfff < c.toNat ∧ c.toNat < 0x110000 := c.valid

end Encoded

section Round

variable {b : UInt8} {rest after : List UInt8} {count minimum bits fuel : Nat}

theorem leading_two {b : Nat} (low : 0xc2 ≤ b) (high : b ≤ 0xdf) : leading b = some (1,0x80,b % 32) := if_pos ⟨low,high⟩

theorem leading_three {b : Nat} (low : 0xe0 ≤ b) (high : b ≤ 0xef) : leading b = some (2,0x800,b % 16) := by
  rw [leading,if_neg (by omega),if_pos ⟨low,high⟩]

theorem leading_four {b : Nat} (low : 0xf0 ≤ b) (high : b ≤ 0xf4) : leading b = some (3,0x10000,b % 8) := by
  rw [leading,if_neg (by omega),if_neg (by omega),if_pos ⟨low,high⟩]

theorem leading_high {b : UInt8} (found : leading b.toNat = some (count,minimum,bits)) : b ≠ 0 ∧ ¬b < 0x80 := by
  have ranges := leading_eq_some found
  rw [← UInt8.toNat_inj.ne,UInt8.lt_iff_toNat_lt]
  constructor
  · show b.toNat ≠ 0
    omega
  · show ¬b.toNat < 0x80
    omega

theorem canonical_multi (cp : Nat) (lead : leading b.toNat = some (count,minimum,bits)) (read : continued count bits rest = some (cp,after))
    (fits : ¬(cp < minimum ∨ 0x10ffff < cp ∨ 0xd800 ≤ cp ∧ cp ≤ 0xdfff)) :
    canonical (fuel + 1) (b :: rest) = canonical fuel after := by
  obtain ⟨nonzero,high⟩ := leading_high lead
  rw [canonical,if_neg nonzero,if_neg high,lead]
  simp only [read]
  rw [if_neg fits]

end Round

theorem toNat_ofNat {n : Nat} (valid : n.isValidChar) : (Char.ofNat n).toNat = n := by
  rw [Char.ofNat,dif_pos valid]
  rfl

theorem byte_toNat {n : Nat} (small : n < 256) : (UInt8.ofNat n).toNat = n := UInt8.toNat_ofNat'.trans (Nat.mod_eq_of_lt small)

/-- One character of a text is one round of the check. -/
theorem canonical_char {c : Char} (nonzero : c ≠ '\x00') (fuel : Nat) (rest : List UInt8) :
    canonical (fuel + 1) (String.utf8EncodeChar c ++ rest) = canonical fuel rest := by
  have positive : c.toNat ≠ 0 := fun zero => nonzero (Char.toNat_inj.mp zero)
  have next : ∀ {count cp n rest}, 0x80 ≤ n → n < 0xc0 →
      continued (count + 1) cp (UInt8.ofNat n :: rest) = continued count (cp * 64 + n % 64) rest := by
    intro count cp n rest low high
    rw [continued_cons,byte_toNat (by omega),if_pos (by omega)]
  have valid := scalar c
  rcases Nat.lt_or_ge 0x7f c.toNat with one | one
  · rcases Nat.lt_or_ge 0x7ff c.toNat with two | two
    · rcases Nat.lt_or_ge 0xffff c.toNat with three | three
      · rw [encoded_four three]
        simp only [List.cons_append,List.nil_append]
        refine canonical_multi c.toNat (by rw [byte_toNat (by omega)]; exact leading_four (by omega) (by omega)) ?_ ?_
        · rw [next (by omega) (by omega),next (by omega) (by omega),next (by omega) (by omega),continued]
          exact congrArg (fun n => some (n,rest)) (by omega)
        · omega
      · rw [encoded_three two three]
        simp only [List.cons_append,List.nil_append]
        refine canonical_multi c.toNat (by rw [byte_toNat (by omega)]; exact leading_three (by omega) (by omega)) ?_ ?_
        · rw [next (by omega) (by omega),next (by omega) (by omega),continued]
          exact congrArg (fun n => some (n,rest)) (by omega)
        · omega
    · rw [encoded_two one two]
      simp only [List.cons_append,List.nil_append]
      refine canonical_multi c.toNat (by rw [byte_toNat (by omega)]; exact leading_two (by omega) (by omega)) ?_ ?_
      · rw [next (by omega) (by omega),continued]
        exact congrArg (fun n => some (n,rest)) (by omega)
      · omega
  · rw [encoded_one one,List.singleton_append,canonical]
    have here : UInt8.ofNat c.toNat ≠ 0 ∧ UInt8.ofNat c.toNat < 0x80 := by
      rw [← UInt8.toNat_inj.ne,UInt8.lt_iff_toNat_lt,byte_toNat (by omega)]
      exact ⟨by simpa using positive,by simp; omega⟩
    rw [if_neg here.1,if_pos here.2]

/-- The continuation bytes and the code point they lead to. -/
theorem continued_eq_some {count cp result : Nat} {rest after : List UInt8} (read : continued (count + 1) cp rest = some (result,after)) :
    ∃ n tail, rest = UInt8.ofNat n :: tail ∧ 0x80 ≤ n ∧ n < 0xc0 ∧ continued count (cp * 64 + n % 64) tail = some (result,after) := by
  cases rest with
  | nil => cases read
  | cons next tail =>
    rw [continued_cons] at read
    split at read
    · next high => exact ⟨next.toNat,tail,by rw [UInt8.ofNat_toNat],by omega,by omega,read⟩
    · cases read

/-- What passes a round is the encoding of a character. -/
theorem canonical_first {b : UInt8} {rest : List UInt8} {fuel : Nat} (accepted : canonical (fuel + 1) (b :: rest) = true) :
    ∃ c after, c ≠ '\x00' ∧ b :: rest = String.utf8EncodeChar c ++ after ∧ canonical fuel after = true := by
  have bound := b.toNat_lt
  rw [canonical] at accepted
  split at accepted
  · cases accepted
  next nonzero =>
  have positive : b.toNat ≠ 0 := fun zero => nonzero (UInt8.toNat_inj.mp zero)
  split at accepted
  · next small =>
    have low : b.toNat < 0x80 := UInt8.lt_iff_toNat_lt.mp small
    have code : (Char.ofNat b.toNat).toNat = b.toNat := toNat_ofNat (.inl (by omega))
    refine ⟨Char.ofNat b.toNat,rest,?_,?_,accepted⟩
    · rw [← Char.toNat_inj.ne,code]
      exact positive
    · rw [encoded_one (by omega),code,UInt8.ofNat_toNat,List.singleton_append]
  · split at accepted
    · cases accepted
    next count minimum bits lead =>
    split at accepted
    · cases accepted
    next cp after read =>
    split at accepted
    · cases accepted
    next fits =>
    have code : (Char.ofNat cp).toNat = cp := toNat_ofNat (by rw [Nat.isValidChar]; omega)
    have nonzero : Char.ofNat cp ≠ '\x00' := by
      have least := leading_eq_some lead
      rw [← Char.toNat_inj.ne,code]
      show cp ≠ 0
      omega
    refine ⟨Char.ofNat cp,after,nonzero,?_,accepted⟩
    have first : ∀ n, n = b.toNat → b = UInt8.ofNat n := fun n same => by rw [same,UInt8.ofNat_toNat]
    rcases leading_eq_some lead with ⟨low,high,rfl,rfl,rfl⟩ | ⟨low,high,rfl,rfl,rfl⟩ | ⟨low,high,rfl,rfl,rfl⟩
    · obtain ⟨n,tail,rfl,nLow,nHigh,read⟩ := continued_eq_some read
      obtain ⟨rfl,rfl⟩ : _ = cp ∧ _ = after := by simpa [continued] using read
      rw [encoded_two (by omega) (by omega),code]
      simp only [List.cons_append,List.nil_append,List.cons.injEq,and_true]
      exact ⟨first _ (by omega),congrArg UInt8.ofNat (by omega)⟩
    · obtain ⟨n,tail,rfl,nLow,nHigh,read⟩ := continued_eq_some read
      obtain ⟨m,tail,rfl,mLow,mHigh,read⟩ := continued_eq_some read
      obtain ⟨rfl,rfl⟩ : _ = cp ∧ _ = after := by simpa [continued] using read
      rw [encoded_three (by omega) (by omega),code]
      simp only [List.cons_append,List.nil_append,List.cons.injEq,and_true]
      exact ⟨first _ (by omega),congrArg UInt8.ofNat (by omega),congrArg UInt8.ofNat (by omega)⟩
    · obtain ⟨n,tail,rfl,nLow,nHigh,read⟩ := continued_eq_some read
      obtain ⟨m,tail,rfl,mLow,mHigh,read⟩ := continued_eq_some read
      obtain ⟨k,tail,rfl,kLow,kHigh,read⟩ := continued_eq_some read
      obtain ⟨rfl,rfl⟩ : _ = cp ∧ _ = after := by simpa [continued] using read
      rw [encoded_four (by omega),code]
      simp only [List.cons_append,List.nil_append,List.cons.injEq,and_true]
      exact ⟨first _ (by omega),congrArg UInt8.ofNat (by omega),congrArg UInt8.ofNat (by omega),congrArg UInt8.ofNat (by omega)⟩

/-- Bytes pass the check when they encode a text without a NUL, and only then. -/
theorem canonical_iff (bytes : List UInt8) :
    canonical bytes.length bytes = true ↔ ∃ text : List Char, bytes = text.flatMap String.utf8EncodeChar ∧ '\x00' ∉ text := by
  constructor
  · have sound : ∀ fuel (bytes : List UInt8), canonical fuel bytes = true →
        ∃ text : List Char, bytes = text.flatMap String.utf8EncodeChar ∧ '\x00' ∉ text := by
      intro fuel
      induction fuel with
      | zero =>
        intro bytes accepted
        cases bytes with
        | nil => exact ⟨[],rfl,List.not_mem_nil⟩
        | cons b rest => cases accepted
      | succ fuel ih =>
        intro bytes accepted
        cases bytes with
        | nil => exact ⟨[],rfl,List.not_mem_nil⟩
        | cons b rest =>
          obtain ⟨c,after,nonzero,same,later⟩ := canonical_first accepted
          obtain ⟨text,rfl,noNul⟩ := ih after later
          exact ⟨c :: text,same,fun member => (List.mem_cons.mp member).elim (fun zero => nonzero zero.symm) noNul⟩
    exact sound bytes.length bytes
  · rintro ⟨text,rfl,noNul⟩
    have complete : ∀ text : List Char, '\x00' ∉ text → ∀ fuel, (text.flatMap String.utf8EncodeChar).length ≤ fuel →
        canonical fuel (text.flatMap String.utf8EncodeChar) = true := by
      intro text
      induction text with
      | nil =>
        intro _ fuel _
        cases fuel <;> rfl
      | cons c text ih =>
        intro noNul fuel enough
        rw [List.mem_cons,not_or] at noNul
        rw [List.flatMap_cons] at enough ⊢
        have positive := Char.utf8Size_pos c
        rw [List.length_append,String.length_utf8EncodeChar] at enough
        obtain ⟨less,rfl⟩ : ∃ less, fuel = less + 1 := ⟨fuel - 1,by omega⟩
        rw [canonical_char (Ne.symm noNul.1)]
        exact ih noNul.2 less (by omega)
    exact complete text noNul _ (Nat.le_refl _)

end S2Script.EngineCopyArena

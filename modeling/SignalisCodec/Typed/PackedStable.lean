import SignalisCodec.Typed.PackedExact

/-! Packed payloads read and written again: the values stay, and the payload grows in one case only,
negative `int32` values that came in fewer than ten bytes. -/
namespace SignalisCodec.Js
open TwosComplement Leb128

section varints
variable {α : Type} {InRange : α → Prop} {write : α → Except Exception ℤ} {read : ℤ → α} {k : ℕ}

/-- What is read from a 64-bit word is in range, and the word written for it takes at most `k` times
the bytes. -/
structure Rereads (k : ℕ) (InRange : α → Prop) (write : α → Except Exception ℤ) (read : ℤ → α) :
    Prop where
  inRange {raw : ℤ} (hlo : 0 ≤ raw) (hhi : raw ≤ 18446744073709551615) : InRange (read raw)
  length {raw raw' : ℤ} (hlo : 0 ≤ raw) (hhi : raw ≤ 18446744073709551615)
    (h : write (read raw) = .ok raw') :
    (shortest raw'.toNat).length ≤ k * (shortest raw.toNat).length

/-- A type that writes no larger words than it reads does not make payloads longer. -/
lemma rereads_of_le
    (hrange : ∀ raw : ℤ, 0 ≤ raw → raw ≤ 18446744073709551615 → InRange (read raw))
    (hle : ∀ raw raw' : ℤ, 0 ≤ raw → raw ≤ 18446744073709551615 → write (read raw) = .ok raw' →
      raw' ≤ raw) : Rereads 1 InRange write read where
  inRange {raw} hlo hhi := hrange raw hlo hhi
  length {raw raw'} hlo hhi h := by
    rw [one_mul]
    exact shortest_length_mono (Int.toNat_le_toNat (hle raw raw' hlo hhi h))

lemma bigintFromU64_bounds (w : UInt64) :
    0 ≤ bigintFromU64 w ∧ bigintFromU64 w ≤ 18446744073709551615 := by
  have hw := w.toNat_lt
  change (0 : ℤ) ≤ (w.toNat : ℤ) ∧ (w.toNat : ℤ) ≤ 18446744073709551615
  omega

/-- Words, read and written again, word by word. -/
lemma reread_words (hconv : Converts InRange 18446744073709551615 write read)
    (h : Rereads k InRange write read) (words : List UInt64) :
    ∃ words' : List UInt64,
      ((words.map bigintFromU64).map read).mapM write = .ok (words'.map bigintFromU64) ∧
      (words'.map bigintFromU64).map read = (words.map bigintFromU64).map read ∧
      (SignalisCodec.packVarints words').length ≤
        k * (SignalisCodec.packVarints words).length := by
  simp only [packVarints_eq]
  induction words with
  | nil => exact ⟨[],rfl,rfl,Nat.zero_le _⟩
  | cons w words ih =>
    obtain ⟨words',hwrite,hread,hlen⟩ := ih
    obtain ⟨hlo,hhi⟩ := bigintFromU64_bounds w
    obtain ⟨raw,hraw,hlo',hhi',hback⟩ := hconv.accepts (h.inRange hlo hhi)
    obtain ⟨w',rfl⟩ := exists_bigintFromU64 hlo' (by omega)
    have hword : (Varint.shortest w').bytes.length ≤ k * (Varint.shortest w).bytes.length :=
      h.length hlo hhi hraw
    refine ⟨w' :: words',?_,?_,?_⟩
    · rw [List.map_cons,List.map_cons,List.mapM_cons,hraw,hwrite]
      rfl
    · rw [List.map_cons,List.map_cons,hback,hread]
      rfl
    · rw [List.flatMap_cons,List.flatMap_cons,List.length_append,List.length_append,Nat.mul_add]
      exact Nat.add_le_add hword hlen

end varints

section statements
variable {α : Type} (InRange : α → Prop) (encode : JsArray α → Except Exception Slice)
  (decode : Slice → Except Exception (List α))

/-- The values of an accepted payload are in range, and encoded again they give a payload of the
same values that is at most `k` times as long. -/
def Reencodes (k : ℕ) : Prop :=
  ∀ buf vs, decode buf = .ok vs → (∀ v ∈ vs, InRange v) ∧
    ∀ hlen, ∃ payload, encode ⟨vs,hlen⟩ = .ok payload ∧ decode payload = .ok vs ∧
      payload.len ≤ k * buf.len

/-- The values of an accepted payload are in range, and encoded again they give the payload. -/
def Reproduces : Prop :=
  ∀ buf vs, decode buf = .ok vs → (∀ v ∈ vs, InRange v) ∧ ∀ hlen, encode ⟨vs,hlen⟩ = .ok buf

end statements

section engine
variable {α : Type} {InRange : α → Prop} {write : α → Except Exception ℤ} {read : ℤ → α} {k : ℕ}
  {getU64 : BigInt → Bool × UInt64 × Bool} {getU32 : Number → UInt32}

/-- A typed decode is the untyped one, each value read. -/
lemma decodePacked_ok {β : Type} {unpack : Slice → Outcome (List β)} {host : β → ℤ} {buf : Slice}
    {vs : List α}
    (h : decodePacked (fun buf => callNative (do
      let values ← mapErr toNapiErr (unpack buf)
      return values.map host)) read buf = .ok vs) :
    ∃ words, unpack buf = .ok words ∧ (words.map host).map read = vs := by
  unfold decodePacked at h
  beta_reduce at h
  cases hbuf : unpack buf with
  | error f =>
    rw [hbuf] at h
    cases f <;> cases h
  | ok words =>
    rw [hbuf] at h
    cases h
    exact ⟨words,rfl,rfl⟩

theorem Rereads.reencodes (hgetU64 : GetU64Exact getU64)
    (hconv : Converts InRange 18446744073709551615 write read) (h : Rereads k InRange write read) :
    Reencodes InRange (encodePacked (packVarints getU64) write) (decodePacked unpackVarints read)
      k := by
  intro buf vs hdecode
  obtain ⟨words,hwords,rfl⟩ := decodePacked_ok hdecode
  obtain ⟨words',hwrite,hread,hgrow⟩ := reread_words hconv h words
  refine ⟨?_,?_⟩
  · intro v hv
    obtain ⟨raw,hraw,rfl⟩ := List.mem_map.mp hv
    obtain ⟨w,-,rfl⟩ := List.mem_map.mp hraw
    exact h.inRange (bigintFromU64_bounds w).1 (bigintFromU64_bounds w).2
  · intro hlen
    have hlen' : words'.length ≤ 4294967295 := by
      have hsame := congrArg List.length hread
      simp only [List.length_map] at hsame hlen
      omega
    have hfits := fits_of_length_le hlen' (packVarints_length_le words')
    refine ⟨⟨_,hfits⟩,?_,?_,?_⟩
    · rw [encodePacked,hwrite]
      change packVarints getU64 _ = _
      rw [packVarints,packVarintsJs,packBigInts_ok hgetU64 hfits]
      rfl
    · rw [decodePacked,unpackVarints,unpackVarintsJs,unpackVarints_packVarints rfl]
      exact congrArg Except.ok hread
    · exact hgrow.trans (Nat.mul_le_mul_left k (packVarints_shortens hwords).length_le)

/-- Reading and writing are inverse on all raw values up to `bound`. -/
structure Inverts (bound : ℤ) (InRange : α → Prop) (write : α → Except Exception ℤ)
    (read : ℤ → α) : Prop where
  inRange {raw : ℤ} (hlo : 0 ≤ raw) (hhi : raw ≤ bound) : InRange (read raw)
  write_read {raw : ℤ} (hlo : 0 ≤ raw) (hhi : raw ≤ bound) : write (read raw) = .ok raw

lemma Inverts.mapM_write {bound : ℤ} (h : Inverts bound InRange write read) {raws : List ℤ}
    (hraws : ∀ raw ∈ raws, 0 ≤ raw ∧ raw ≤ bound) : (raws.map read).mapM write = .ok raws := by
  induction raws with
  | nil => rfl
  | cons raw raws ih =>
    obtain ⟨hlo,hhi⟩ := hraws raw (by simp)
    rw [List.map_cons,List.mapM_cons,h.write_read hlo hhi,ih fun r hr => hraws r (by simp [hr])]
    rfl

/-- An engine that packs what it unpacked into the same bytes carries over to the types. -/
lemma Inverts.reproduces {bound : ℤ} (h : Inverts bound InRange write read)
    {pack : List ℤ → Except Exception Slice} {β : Type} {unpack : Slice → Outcome (List β)}
    {host : β → ℤ} (hhost : ∀ w, 0 ≤ host w ∧ host w ≤ bound)
    (hpack : ∀ buf words, unpack buf = .ok words → pack (words.map host) = .ok buf) :
    Reproduces InRange (encodePacked pack write) (decodePacked (fun buf => callNative (do
      let values ← mapErr toNapiErr (unpack buf)
      return values.map host)) read) := by
  intro buf vs hdecode
  obtain ⟨words,hwords,rfl⟩ := decodePacked_ok hdecode
  refine ⟨?_,?_⟩
  · intro v hv
    obtain ⟨raw,hraw,rfl⟩ := List.mem_map.mp hv
    obtain ⟨w,-,rfl⟩ := List.mem_map.mp hraw
    exact h.inRange (hhost w).1 (hhost w).2
  · intro hlen
    have hraws : ∀ raw ∈ words.map host, 0 ≤ raw ∧ raw ≤ bound := by
      intro raw hraw
      obtain ⟨w,-,rfl⟩ := List.mem_map.mp hraw
      exact hhost w
    rw [encodePacked,h.mapM_write hraws]
    exact hpack buf words hwords

lemma repack_fixed64 (hgetU64 : GetU64Exact getU64) (buf : Slice) (words : List UInt64)
    (h : SignalisCodec.unpackFixed64 buf = .ok words) :
    packFixed64 getU64 (words.map bigintFromU64) = .ok buf := by
  have hbytes : SignalisCodec.packFixed64 words = buf.bytes := fixedWidth64.unpackFixed_ok_iff.mp h
  have hfits : (SignalisCodec.packFixed64 words).length ≤ ISIZE_MAX := hbytes ▸ buf.fits
  rw [packFixed64,packFixed64Js,packBigInts_ok hgetU64 hfits]
  exact congrArg Except.ok (Slice.ext hbytes)

lemma repack_fixed32 (hgetU32 : GetU32Exact getU32) (buf : Slice) (words : List UInt32)
    (h : SignalisCodec.unpackFixed32 buf = .ok words) :
    packFixed32 getU32 (words.map numberFromU32) = .ok buf := by
  have hbytes : SignalisCodec.packFixed32 words = buf.bytes := fixedWidth32.unpackFixed_ok_iff.mp h
  have hwords : (words.map numberFromU32).map getU32 = words := by
    rw [List.map_map]
    refine (List.map_congr_left fun w _ => ?_).trans (List.map_id words)
    have hw := w.toNat_lt
    have hexact := hgetU32.value w.toNat (Int.natCast_nonneg _) (by omega)
    exact UInt32.toNat_inj.mp (Int.ofNat.inj hexact)
  have hfits : (SignalisCodec.packFixed32 words).length ≤ ISIZE_MAX := hbytes ▸ buf.fits
  rw [packFixed32,packFixed32Js,hwords,toBuffer,dif_pos hfits]
  exact congrArg Except.ok (Slice.ext hbytes)

end engine

section readers

lemma bmod64_between (v : ℤ) :
    Between (-9223372036854775808) 9223372036854775807 (v.bmod 18446744073709551616) :=
  ⟨Int.le_bmod (by decide),Int.le_sub_one_of_lt (Int.bmod_lt (by decide))⟩

lemma unzigzag_between {w m : ℤ} (hlo : 0 ≤ w) (hhi : w < 2 * m) :
    Between (-m) (m - 1) (unzigzag w) := by
  rw [← zigzag_unzigzag hlo] at hhi
  obtain ⟨hlo',hhi'⟩ := zigzag_lt_iff.mp hhi
  exact ⟨hlo',Int.le_sub_one_of_lt hhi'⟩

lemma word_emod {raw : ℤ} (hlo : 0 ≤ raw) (hhi : raw ≤ 18446744073709551615) :
    raw % 18446744073709551616 = raw :=
  Int.emod_eq_of_lt hlo (by omega)

lemma emod32_le {raw : ℤ} (hlo : 0 ≤ raw) : raw % 4294967296 ≤ raw := by omega

/-- A 64-bit word read as signed is written as the same word. -/
lemma fromSigned_bmod {raw : ℤ} {type : String} (hlo : 0 ≤ raw)
    (hhi : raw ≤ 18446744073709551615) :
    fromSigned I64_MIN I64_MAX type (raw.bmod 18446744073709551616) = .ok raw := by
  have hwrite : fromSigned I64_MIN I64_MAX type (raw.bmod 18446744073709551616) = .ok _ :=
    fromSigned_ok (bmod64_between raw)
  have hcancel : raw.bmod 18446744073709551616 % 18446744073709551616 = _ :=
    @Int.bmod_emod raw 18446744073709551616
  rw [hwrite,hcancel]
  exact congrArg Except.ok (word_emod hlo hhi)

lemma rereads_int64 :
    Rereads 1 (Between (-9223372036854775808) 9223372036854775807) fromInt64 asInt64 := by
  apply rereads_of_le
  · intro raw _ _
    rw [asInt64_eq]
    exact bmod64_between raw
  · intro raw raw' hlo hhi h
    rw [asInt64_eq,fromInt64,fromSigned_bmod hlo hhi] at h
    exact (Except.ok.inj h).ge

lemma rereads_uint32 : Rereads 1 (Between 0 4294967295) fromUint32 asUint32 := by
  have hrange : ∀ raw : ℤ, Between 0 4294967295 (asUint32 raw) := by
    intro raw
    rw [asUint32_eq]
    exact emod_bounds raw (by decide)
  apply rereads_of_le
  · exact fun raw _ _ => hrange raw
  · intro raw raw' hlo _ h
    have hwrite : fromUint32 (asUint32 raw) = .ok (asUint32 raw) := fromUnsigned_ok (hrange raw)
    rw [hwrite] at h
    rw [← Except.ok.inj h,asUint32_eq]
    exact emod32_le hlo

lemma rereads_uint64 : Rereads 1 (Between 0 18446744073709551615) fromUint64 asUint64 := by
  have hread : ∀ raw : ℤ, 0 ≤ raw → raw ≤ 18446744073709551615 → asUint64 raw = raw := by
    intro raw hlo hhi
    rw [asUint64_eq,word_emod hlo hhi]
  apply rereads_of_le
  · intro raw hlo hhi
    rw [hread raw hlo hhi]
    exact ⟨hlo,hhi⟩
  · intro raw raw' hlo hhi h
    have hwrite : fromUint64 raw = .ok raw := fromUnsigned_ok ⟨hlo,hhi⟩
    rw [hread raw hlo hhi,hwrite] at h
    exact (Except.ok.inj h).ge

lemma rereads_sint32 :
    Rereads 1 (Between (-2147483648) 2147483647) fromSint32 asSint32 := by
  have hrange : ∀ raw : ℤ, Between (-2147483648) 2147483647 (asSint32 raw) := by
    intro raw
    obtain ⟨hlo,hhi⟩ := emod_bounds raw (m := 4294967296) (by decide)
    rw [asSint32_eq]
    exact unzigzag_between (m := 2147483648) hlo (by omega)
  apply rereads_of_le
  · exact fun raw _ _ => hrange raw
  · intro raw raw' hlo _ h
    rw [fromSint32_ok (hrange raw),asSint32_eq,
      zigzag_unzigzag (emod_bounds raw (by decide)).1] at h
    rw [← Except.ok.inj h]
    exact emod32_le hlo

lemma rereads_sint64 :
    Rereads 1 (Between (-9223372036854775808) 9223372036854775807) fromSint64 asSint64 := by
  have hrange : ∀ raw : ℤ, Between (-9223372036854775808) 9223372036854775807 (asSint64 raw) := by
    intro raw
    obtain ⟨hlo,hhi⟩ := emod_bounds raw (m := 18446744073709551616) (by decide)
    rw [asSint64_eq]
    exact unzigzag_between (m := 9223372036854775808) hlo (by omega)
  apply rereads_of_le
  · exact fun raw _ _ => hrange raw
  · intro raw raw' hlo hhi h
    rw [fromSint64_ok (hrange raw),asSint64_eq,word_emod hlo hhi,zigzag_unzigzag hlo] at h
    exact (Except.ok.inj h).ge

lemma rereads_bool : Rereads 1 (fun _ => True) (fun value => .ok (fromBool value)) asBool := by
  apply rereads_of_le
  · exact fun _ _ _ => trivial
  · intro raw raw' hlo _ h
    rw [← Except.ok.inj h,asBool,fromBool]
    by_cases hzero : raw = 0
    · simp [hzero]
    · simp [hzero]
      omega

/-- A negative value has a word of at least five bytes, and is written in ten. -/
lemma rereads_int32 :
    Rereads 2 (Between (-2147483648) 2147483647) fromInt32 asInt32 where
  inRange {raw} _ _ := by
    rw [asInt32_eq]
    exact bmod32_between raw
  length {raw raw'} hlo hhi h := by
    have hwrite : fromInt32 (raw.bmod 4294967296) =
        .ok (raw.bmod 4294967296 % 18446744073709551616) := fromSigned_ok (bmod32_between raw)
    rw [asInt32_eq,hwrite] at h
    obtain rfl := Except.ok.inj h
    have hbmod := bmod_eq_ite raw 2147483648
    norm_num at hbmod
    by_cases hneg : raw % 4294967296 < 2147483648
    · have hsame : raw.bmod 4294967296 % 18446744073709551616 = raw % 4294967296 := by
        rw [hbmod,if_neg (by omega)]
        omega
      have hmono := shortest_length_mono (Int.toNat_le_toNat (emod32_le hlo))
      rw [hsame]
      omega
    · have hbig : 128 ^ 4 ≤ raw.toNat := by omega
      have hfive : 5 ≤ (shortest raw.toNat).length := by
        by_contra hshort
        have hlt := value_lt (shortest raw.toNat)
        rw [value_shortest] at hlt
        have hpow : 128 ^ (shortest raw.toNat).length ≤ 128 ^ 4 :=
          Nat.pow_le_pow_right (by decide) (by omega)
        omega
      have hten : (shortest (raw.bmod 4294967296 % 18446744073709551616).toNat).length ≤ 10 := by
        apply shortest_length_le (k := 9)
        have hlt := (emod_bounds (raw.bmod 4294967296) (m := 18446744073709551616) (by decide)).2
        norm_num
        omega
      omega

lemma inverts_fixed32 : Inverts 4294967295 (Between 0 4294967295) fromFixed32 asFixed32 := by
  have hread : ∀ raw : ℤ, 0 ≤ raw → raw ≤ 4294967295 → asFixed32 raw = raw := by
    intro raw hlo hhi
    rw [asFixed32_eq]
    exact Int.emod_eq_of_lt hlo (by omega)
  constructor
  · intro raw hlo hhi
    rw [hread raw hlo hhi]
    exact ⟨hlo,hhi⟩
  · intro raw hlo hhi
    obtain ⟨raw',hwrite,hlo',hhi',hback⟩ := converts_fixed32.accepts ⟨hlo,hhi⟩
    rw [hread raw' hlo' hhi'] at hback
    rw [hread raw hlo hhi,hwrite,hback]

lemma inverts_sfixed32 :
    Inverts 4294967295 (Between (-2147483648) 2147483647) fromSfixed32 asSfixed32 := by
  have hrange : ∀ raw : ℤ, Between (-2147483648) 2147483647 (asSfixed32 raw) := by
    intro raw
    rw [asSfixed32_eq]
    exact bmod32_between raw
  constructor
  · exact fun {raw} _ _ => hrange raw
  · intro raw hlo hhi
    obtain ⟨raw',hwrite,hlo',hhi',hback⟩ := converts_sfixed32.accepts (hrange raw)
    -- residues below the modulus are equal where their balanced residues are
    have hmod := congrArg (· % (4294967296 : ℤ)) hback
    simp only [asSfixed32_eq] at hmod
    have hcancel : ∀ x : ℤ, x.bmod 4294967296 % 4294967296 = x % 4294967296 := fun x =>
      @Int.bmod_emod x 4294967296
    rw [hcancel,hcancel,Int.emod_eq_of_lt hlo' (by omega),Int.emod_eq_of_lt hlo (by omega)] at hmod
    rw [hwrite,hmod]

lemma inverts_fixed64 :
    Inverts 18446744073709551615 (Between 0 18446744073709551615) fromFixed64 asFixed64 where
  inRange {raw} hlo hhi := rereads_uint64.inRange hlo hhi
  write_read {raw} hlo hhi := by
    have hread : asFixed64 raw = raw := (asUint64_eq raw).trans (word_emod hlo hhi)
    rw [hread]
    exact fromUnsigned_ok ⟨hlo,hhi⟩

lemma inverts_sfixed64 : Inverts 18446744073709551615
    (Between (-9223372036854775808) 9223372036854775807) fromSfixed64 asSfixed64 where
  inRange {raw} hlo hhi := rereads_int64.inRange hlo hhi
  write_read {raw} hlo hhi := by
    have hread : asSfixed64 raw = raw.bmod 18446744073709551616 := asInt64_eq raw
    rw [hread]
    exact fromSigned_bmod hlo hhi

end readers

section types
variable {getU64 : BigInt → Bool × UInt64 × Bool} {getU32 : Number → UInt32}

lemma numberFromU32_bounds (w : UInt32) : 0 ≤ numberFromU32 w ∧ numberFromU32 w ≤ 4294967295 := by
  have hw := w.toNat_lt
  change (0 : ℤ) ≤ (w.toNat : ℤ) ∧ (w.toNat : ℤ) ≤ 4294967295
  omega

/-- All integer types: an accepted payload, read and written again, keeps its values. Fixed-width
payloads come back as they were, varint payloads no longer than they were, but for `int32` and
`enum`, where they can take twice the bytes. -/
theorem packed_types_stable (h64 : GetU64Exact getU64) (h32 : GetU32Exact getU32) :
    Reencodes (Between (-2147483648) 2147483647) (encodePackedInt32 getU64) decodePackedInt32 2 ∧
    Reencodes (Between (-2147483648) 2147483647) (encodePackedEnum getU64) decodePackedEnum 2 ∧
    Reencodes (Between (-9223372036854775808) 9223372036854775807)
      (encodePackedInt64 getU64) decodePackedInt64 1 ∧
    Reencodes (Between 0 4294967295) (encodePackedUint32 getU64) decodePackedUint32 1 ∧
    Reencodes (Between 0 18446744073709551615) (encodePackedUint64 getU64) decodePackedUint64 1 ∧
    Reencodes (Between (-2147483648) 2147483647) (encodePackedSint32 getU64)
      decodePackedSint32 1 ∧
    Reencodes (Between (-9223372036854775808) 9223372036854775807)
      (encodePackedSint64 getU64) decodePackedSint64 1 ∧
    Reencodes (fun _ => True) (encodePackedBool getU64) decodePackedBool 1 ∧
    Reproduces (Between 0 4294967295) (encodePackedFixed32 getU32) decodePackedFixed32 ∧
    Reproduces (Between (-2147483648) 2147483647) (encodePackedSfixed32 getU32)
      decodePackedSfixed32 ∧
    Reproduces (Between 0 18446744073709551615) (encodePackedFixed64 getU64)
      decodePackedFixed64 ∧
    Reproduces (Between (-9223372036854775808) 9223372036854775807)
      (encodePackedSfixed64 getU64) decodePackedSfixed64 :=
  ⟨rereads_int32.reencodes h64 converts_int32,rereads_int32.reencodes h64 converts_enum,
    rereads_int64.reencodes h64 converts_int64,rereads_uint32.reencodes h64 converts_uint32,
    rereads_uint64.reencodes h64 converts_uint64,rereads_sint32.reencodes h64 converts_sint32,
    rereads_sint64.reencodes h64 converts_sint64,rereads_bool.reencodes h64 converts_bool,
    inverts_fixed32.reproduces numberFromU32_bounds (repack_fixed32 h32),
    inverts_sfixed32.reproduces numberFromU32_bounds (repack_fixed32 h32),
    inverts_fixed64.reproduces bigintFromU64_bounds (repack_fixed64 h64),
    inverts_sfixed64.reproduces bigintFromU64_bounds (repack_fixed64 h64)⟩

end types

/-- The five-byte word of -1 is read as -1 and written in ten bytes. -/
theorem packed_types_stable_example :
    ∃ payload, encodePackedInt32 signedWord ⟨[-1],by decide⟩ = .ok payload ∧
      decodePackedInt32 payload = .ok [-1] ∧ payload.len ≤ 2 * 5 :=
  ((packed_types_stable signedWord_exact lowWord_exact).1
    ⟨[0xff,0xff,0xff,0xff,0x0f],by decide⟩ [-1] (by decide +kernel)).2 (by decide)

end SignalisCodec.Js

import SignalisCodec.Tree.DepthLimit
import SignalisCodec.Tree.FlatRefinement

/-! What the depth limit counts: every length-delimited payload that is opened for a trial parse,
whether or not it turns out to be a message. -/
namespace SignalisCodec
open Reader Fallible Drain

/-- `b` is a length-delimited payload of `buf`, behind complete records only. -/
def Opens (buf b : Slice) : Prop :=
  ∃ recs rec tail, buf.bytes = wires recs ++ (Record.wire rec ++ tail) ∧
    rec.payload.value = .bytes b

/-- `c` lies `k` length-delimited payloads deep in `buf`. -/
inductive Trial : Slice → ℕ → Slice → Prop
  | here (buf : Slice) : Trial buf 0 buf
  | inside {buf b c : Slice} {k : ℕ} (opens : Opens buf b) (below : Trial b k c) :
      Trial buf (k + 1) c

/-- Messages nest `k` levels deep in `buf`: payloads that are not empty and consist of records. -/
inductive Nested : Slice → ℕ → Prop
  | here (buf : Slice) : Nested buf 0
  | inside {buf b : Slice} {k : ℕ} (opens : Opens buf b) (nonempty : b.isEmpty = false)
      (parses : ∃ recs, wires recs = b.bytes) (below : Nested b k) : Nested buf (k + 1)

section trial
variable {descend : Slice → Outcome Nodes}

lemma decodeNode_fails {rec : Record} {b : Slice} {r r' : Reader} {f : Failure} (hb : r.InBounds)
    (hread : r.Reads rec.wire r') (hvalue : rec.payload.value = .bytes b)
    (hfail : trial descend b = .error f) : decodeNode descend r = .error f r' := by
  rw [decodeNode_eq,bind_ok (scanRecord_reads hb hread)]
  have hnode : (rec.scanAt r.pos).value.node (trial descend) = .error f := by
    change rec.payload.value.node _ = _
    rw [hvalue]
    exact hfail
  unfold Scan.node
  rw [hnode]
  rfl

/-- A depth error of a payload is passed on, or an earlier record raises one. -/
lemma drain_depthLimit (hdescend : ∀ b f, descend b = .error f → ∃ e, f = .err e)
    {recs : List Record} {rec : Record} {b : Slice} {tail : List UInt8} {r : Reader}
    (hb : r.InBounds) (hr : r.rest = wires recs ++ (rec.wire ++ tail))
    (hvalue : rec.payload.value = .bytes b)
    (hfail : ∃ f, trial descend b = .error f ∧ f.IsDepthLimit) (out : List (UInt32 × Node)) :
    ∃ f, drain loop (decodeNode descend) r out = .error f ∧ f.IsDepthLimit := by
  induction recs generalizing r out with
  | nil =>
    obtain ⟨f,hf,hlimit⟩ := hfail
    have hrun : loop.done r = false := running_of_rest (by simp [hr,rec.wire_ne_nil])
    refine ⟨f,?_,hlimit⟩
    exact drain_fail hrun (decodeNode_fails hb (reads_of_rest hr) hvalue hf) out
  | cons rec₁ recs ih =>
    rw [wires_cons,List.append_assoc] at hr
    have hread := reads_of_rest hr
    have hrun : loop.done r = false := running_of_rest (by simp [hr,rec₁.wire_ne_nil])
    cases hbody : decodeNode descend r with
    | error f r' =>
      refine ⟨f,drain_fail hrun hbody out,?_⟩
      rcases decodeNode_error hdescend hb hbody with ⟨hscan,-⟩ | ⟨-,-,-,-,-,-,hlimit⟩
      · rw [scanRecord_reads hb hread] at hscan
        cases hscan
      · exact hlimit
    | ok p r' =>
      obtain ⟨rec₂,hread₂,-⟩ := (decodeNode_takesRecord descend r p r' hb).mp hbody
      have hsame := Record.selfDelimiting.delimited (hread₂.rest_eq.symm.trans hread.rest_eq)
      rw [drain_step (decodeNode_takesRecord descend).progress hrun hbody]
      apply ih (hread₂.inBounds hb)
      have hnext : r' = r.advance rec₁.wire.length := by
        rw [hread₂.next,hsame]
      rw [hnext]
      exact rest_advance hr

end trial

section depth
variable {limit : UInt32} {budget : ℕ} {buf : Slice}

lemma trial_depthLimit {b : Slice} {f : Failure} (h : parseTree limit budget b = .error f)
    (hf : f.IsDepthLimit) : trial (parseTree limit budget) b = .error f := by
  obtain ⟨l,position,rfl⟩ := f.isDepthLimit_iff.mp hf
  unfold trial
  rw [h]
  rfl

/-- The budget is exceeded exactly if some payload lies that many payloads deep. -/
theorem parseTree_depthLimit_iff :
    (∃ f, parseTree limit budget buf = .error f ∧ f.IsDepthLimit) ↔
      ∃ k c, Trial buf k c ∧ budget ≤ k := by
  induction budget generalizing buf with
  | zero =>
    constructor
    · intro _
      exact ⟨0,buf,.here buf,le_rfl⟩
    · intro _
      exact ⟨_,rfl,trivial⟩
  | succ budget ih =>
    constructor
    · rintro ⟨f,hf,hlimit⟩
      rw [parseTree,(decodeNode_takesRecord _).readAll_error_iff] at hf
      obtain ⟨recs,as,r,r',hreads,-,-,hbody⟩ := hf
      rcases decodeNode_error parseTree_error_err (hreads.inBounds (inBounds_new buf)) hbody with
        ⟨-,hm⟩ | ⟨rec,b,r₁,hread,hvalue,hd,-⟩
      · exact absurd hlimit (f.isMalformed_iff.mp hm).2
      · obtain ⟨k,c,hbelow,hle⟩ := ih.mp ⟨f,hd,hlimit⟩
        have hopens : Opens buf b := by
          refine ⟨recs,rec,r₁.rest,?_,hvalue⟩
          rw [← rest_new,hreads.rest_eq,hread.rest_eq]
        exact ⟨k + 1,c,.inside hopens hbelow,Nat.succ_le_succ hle⟩
    · rintro ⟨k,c,htrial,hle⟩
      cases htrial with
      | here => omega
      | @inside b _ _ k hopens hbelow =>
        obtain ⟨recs,rec,tail,hbytes,hvalue⟩ := hopens
        obtain ⟨f,hf,hlimit⟩ := ih.mpr ⟨k,c,hbelow,by omega⟩
        have hr : (new buf).rest = wires recs ++ (rec.wire ++ tail) := by
          rw [rest_new]
          exact hbytes
        exact drain_depthLimit parseTree_error_err (inBounds_new buf) hr hvalue
          ⟨f,trial_depthLimit hf hlimit,hlimit⟩ []

/-- A payload that consists of records is not refused by a trial parse, but for its depth. -/
lemma parses_not_malformed {b : Slice} {f : Failure} (hparses : ∃ recs, wires recs = b.bytes)
    (h : parseTree limit budget b = .error f) : f.IsDepthLimit := by
  cases budget with
  | zero =>
    cases h
    trivial
  | succ budget =>
    obtain ⟨recs,hw⟩ := hparses
    by_contra hlimit
    exact readAll_not_malformed hw h (f.isMalformed_iff.mpr ⟨parseTree_error_err b f h,hlimit⟩)

/-- Nested messages show in the tree as nested `Message` nodes. -/
theorem Nested.le_messageDepth {k : ℕ} (h : Nested buf k) {t : Nodes}
    (ht : parseTree limit budget buf = .ok t) : k ≤ messageDepth t := by
  induction h generalizing budget t with
  | here buf => exact Nat.zero_le _
  | @inside buf b k hopens hne hparses hbelow ih =>
    cases budget with
    | zero => cases ht
    | succ budget =>
      obtain ⟨recs,hw,hnodes⟩ := parseTree_succ_ok_iff.mp ht
      obtain ⟨recs₀,rec,tail,hbytes,hvalue⟩ := hopens
      rw [← hw] at hbytes
      obtain ⟨p,hp,-,hnode⟩ := Pairing.forall₂_mem_left hnodes
        (Record.selfDelimiting.mem_of_flatMap_eq hbytes)
      rw [hvalue] at hnode
      have hdeep := node_messageDepth_le hp
      rcases trial_ok hnode with ⟨children,hmessage⟩ | hraw
      · rw [hmessage] at hnode hdeep
        have := ih (trial_eq_message_iff.mp hnode).2
        simp only [Node.messageDepth] at hdeep
        omega
      · rw [hraw] at hnode
        obtain ⟨-,⟨hempty,-⟩ | ⟨e,he,hlimit⟩⟩ := trial_eq_bytes_iff.mp hnode
        · rw [hempty] at hne
          cases hne
        · exact absurd (parses_not_malformed hparses he) hlimit

end depth

/-- Below `u32::MAX`, the depth error at limit `d`: some payload, of whatever kind, lies deeper. -/
theorem decodeTree_depthLimit_iff (buf : Slice) {d : UInt32} (hd : d < 4294967295) :
    (∃ limit position, decodeTree buf d = .error (.err (.depthLimitExceeded limit position))) ↔
      ∃ k c, Trial buf k c ∧ d.toNat < k := by
  have h := @parseTree_depthLimit_iff d (d.toNat + 1) buf
  rw [← decodeTree_eq_parseTree hd] at h
  change _ ↔ ∃ k c, Trial buf k c ∧ d.toNat + 1 ≤ k
  rw [← h]
  constructor
  · rintro ⟨limit,position,he⟩
    exact ⟨_,he,trivial⟩
  · rintro ⟨f,hf,hlimit⟩
    obtain ⟨limit,position,rfl⟩ := f.isDepthLimit_iff.mp hlimit
    exact ⟨limit,position,hf⟩

/-- The limit rejects only what nests deeper than `d` exactly for buffers in which no payload lies
more than `d` payloads deep, or messages do. -/
theorem decodeTree_rejects_only_deeper_iff (buf : Slice) (d : UInt32) (hd : d < 4294967295) :
    ((∀ D t, d ≤ D → D < 4294967295 → decodeTree buf D = .ok t → messageDepth t ≤ d.toNat →
        decodeTree buf d = .ok t) ∧
      ((∃ limit position,
          decodeTree buf d = .error (.err (.depthLimitExceeded limit position))) →
        ∃ k, Nested buf k ∧ d.toNat < k)) ↔
    (∀ k c, Trial buf k c → k ≤ d.toNat) ∨ ∃ k, Nested buf k ∧ d.toNat < k := by
  constructor
  · intro ⟨_,hdeeper⟩
    by_cases hall : ∀ k c, Trial buf k c → k ≤ d.toNat
    · exact .inl hall
    · push Not at hall
      exact .inr (hdeeper ((decodeTree_depthLimit_iff buf hd).mpr hall))
  · intro h
    rcases h with hall | ⟨k,hnested,hk⟩
    · have hno : ¬ ∃ limit position,
          decodeTree buf d = .error (.err (.depthLimitExceeded limit position)) := by
        intro he
        obtain ⟨k,c,htrial,hk⟩ := (decodeTree_depthLimit_iff buf hd).mp he
        exact absurd (hall k c htrial) (Nat.not_le.mpr hk)
      refine ⟨?_,fun he => absurd he hno⟩
      intro D t hle hD ht _
      have hsim := decodeTree_mono hle hD buf
      cases hx : decodeTree buf d with
      | ok t' => rw [← hsim.eq_of_ok hx,ht]
      | error f =>
        by_cases hlimit : f.IsDepthLimit
        · obtain ⟨limit,position,rfl⟩ := f.isDepthLimit_iff.mp hlimit
          exact absurd ⟨limit,position,hx⟩ hno
        · have hfail := hsim.of_error_left hx hlimit
          rw [ht] at hfail
          cases hfail
    · refine ⟨?_,fun _ => ⟨k,hnested,hk⟩⟩
      intro D t _ hD ht hdepth
      rw [decodeTree_eq_parseTree hD] at ht
      have := hnested.le_messageDepth ht
      omega

/-- The string field `1: "a"` holds no message, yet it needs a limit of 1. -/
theorem decodeTree_rejects_leaf :
    ¬ ∀ (buf : Slice) (d D : UInt32) (t : Nodes), d ≤ D → D < 4294967295 →
      decodeTree buf D = .ok t → messageDepth t ≤ d.toNat → decodeTree buf d = .ok t := by
  intro h
  have hleaf := h ⟨[0x0a,0x01,0x61],by decide⟩ 0 1 [(1,.bytes ⟨[0x61],by decide⟩)] (by decide)
    (by decide) (by decide +kernel) (by simp [messageDepth,Node.messageDepth])
  have hfail : decodeTree ⟨[0x0a,0x01,0x61],by decide⟩ 0 =
      .error (.err (.depthLimitExceeded 0 0)) := by decide +kernel
  rw [hfail] at hleaf
  cases hleaf

theorem decodeTree_rejects_only_deeper_iff_example :
    (∀ D t, 1 ≤ D → D < 4294967295 → decodeTree ⟨[0x0a,0x01,0x61],by decide⟩ D = .ok t →
        messageDepth t ≤ 1 → decodeTree ⟨[0x0a,0x01,0x61],by decide⟩ 1 = .ok t) ∧
      ((∃ limit position, decodeTree ⟨[0x0a,0x01,0x61],by decide⟩ 1 =
          .error (.err (.depthLimitExceeded limit position))) →
        ∃ k, Nested ⟨[0x0a,0x01,0x61],by decide⟩ k ∧ 1 < k) := by
  have hleaf : decodeTree ⟨[0x0a,0x01,0x61],by decide⟩ 1 =
      .ok [(1,.bytes ⟨[0x61],by decide⟩)] := by decide +kernel
  have hall : ∀ k c, Trial ⟨[0x0a,0x01,0x61],by decide⟩ k c → k ≤ 1 := by
    intro k c htrial
    by_contra hk
    obtain ⟨limit,position,he⟩ := (decodeTree_depthLimit_iff _ (d := 1) (by decide)).mpr
      ⟨k,c,htrial,Nat.not_le.mp hk⟩
    rw [hleaf] at he
    cases he
  exact (decodeTree_rejects_only_deeper_iff _ 1 (by decide)).mpr (.inl hall)

end SignalisCodec

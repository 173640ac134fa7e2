import SignalisCodec.Grammar.FlatDecode

/-! The recursive decoder with a remaining budget in place of an absolute depth counter. The limit
then only labels the depth error, and a larger budget can only turn that error into a result. -/
namespace SignalisCodec
open Reader Fallible Drain

/-- Decode a tree with `budget` levels left. -/
def parseTree (limit : UInt32) : ℕ → Slice → Outcome Nodes
  | 0,_ => .error (.err (.depthLimitExceeded limit 0))
  | budget + 1,buf => readAll (decodeNode (parseTree limit budget)) buf

/-- The depth counter of `decode_tree_inner` counts up while the budget counts down. Below
`u32::MAX` the addition `depth + 1` does not overflow. -/
theorem decodeTreeInner_eq_parseTree {maxDepth depth : UInt32} (hmax : maxDepth < 4294967295)
    (buf : Slice) :
    decodeTreeInner buf maxDepth depth =
      parseTree maxDepth (maxDepth.toNat + 1 - depth.toNat) buf := by
  have hmax' : maxDepth.toNat < 4294967295 := hmax
  induction hn : maxDepth.toNat + 1 - depth.toNat generalizing depth buf with
  | zero =>
    have hgt : depth > maxDepth := by
      rw [gt_iff_lt,UInt32.lt_iff_toNat_lt]
      omega
    rw [decodeTreeInner,if_pos hgt]
    rfl
  | succ n ih =>
    have hle : ¬ depth > maxDepth := by
      rw [gt_iff_lt,UInt32.lt_iff_toNat_lt]
      omega
    have hfits : depth.toNat + 1 < UInt32.size := by
      simp only [UInt32.size]
      omega
    have hnext : (depth + 1).toNat = depth.toNat + 1 := by
      rw [UInt32.toNat_add]
      exact Nat.mod_eq_of_lt hfits
    have hdescend : (fun sub => decodeTreeInner sub maxDepth (depth + 1)) =
        parseTree maxDepth n := by
      funext sub
      exact ih sub (by rw [hnext]; omega)
    rw [decodeTreeInner,if_neg hle]
    simp only [hfits,if_true,hdescend]
    rfl

theorem decodeTree_eq_parseTree {maxDepth : UInt32} (hmax : maxDepth < 4294967295) (buf : Slice) :
    decodeTree buf maxDepth = parseTree maxDepth (maxDepth.toNat + 1) buf :=
  decodeTreeInner_eq_parseTree hmax buf

section trials
variable {limit : UInt32} {budget : ℕ} {descend : Slice → Outcome Nodes} {b : Slice}

/-- A record and the node it became. -/
def Record.Becomes (limit : UInt32) (budget : ℕ) (rec : Record) (p : UInt32 × Node) : Prop :=
  rec.number = p.1 ∧ rec.payload.value.node (trial (parseTree limit budget)) = .ok p.2

lemma parseTree_succ_ok_iff {buf : Slice} {t : Nodes} :
    parseTree limit (budget + 1) buf = .ok t ↔
      ∃ recs, wires recs = buf.bytes ∧ List.Forall₂ (Record.Becomes limit budget) recs t :=
  (decodeNode_takesRecord _).readAll_ok_iff buf t

lemma trial_eq_message_iff {children : Nodes} :
    trial descend b = .ok (.message children) ↔ b.isEmpty = false ∧ descend b = .ok children := by
  unfold trial classify
  cases descend b with
  | ok children' => cases b.isEmpty <;> simp
  | error f =>
    rcases f with (_ | _ | _ | _ | _ | _ | _) | _ | _ <;> simp

lemma trial_eq_bytes_iff {c : Slice} :
    trial descend b = .ok (.bytes c) ↔ c = b ∧
      (b.isEmpty = true ∧ (∃ children, descend b = .ok children) ∨
        ∃ e, descend b = .error (.err e) ∧ ¬ (Failure.err e).IsDepthLimit) := by
  unfold trial classify
  cases descend b with
  | ok children => cases b.isEmpty <;> simp [@eq_comm _ b c]
  | error f =>
    rcases f with (_ | _ | _ | _ | _ | _ | _) | _ | _ <;> simp [Failure.IsDepthLimit,@eq_comm _ b c]

/-- A length-delimited payload becomes a submessage or stays as it is. -/
lemma trial_ok {node : Node} (h : trial descend b = .ok node) :
    (∃ children, node = .message children) ∨ node = .bytes b := by
  cases node with
  | message children => exact .inl ⟨children,rfl⟩
  | bytes c =>
    obtain ⟨rfl,-⟩ := trial_eq_bytes_iff.mp h
    exact .inr rfl
  | _ =>
    unfold trial classify at h
    split at h
    · split at h <;> cases h
    all_goals cases h

end trials

section failures

/-- A trial parse fails as the recursive call fails, and not for malformed bytes. -/
lemma trial_error_eq {descend : Slice → Outcome Nodes} {sub : Slice} {f : Failure}
    (h : trial descend sub = .error f) : descend sub = .error f ∧ ¬ f.IsMalformed := by
  unfold trial classify at h
  cases hd : descend sub with
  | ok children =>
    rw [hd] at h
    dsimp only at h
    split at h <;> cases h
  | error g =>
    rw [hd] at h
    rcases g with (_ | _ | _ | _ | _ | _ | _) | _ | _ <;> cases h <;> exact ⟨rfl,id⟩

/-- Trial parses turn every error into opaque bytes except the depth limit. -/
lemma trial_error {descend : Slice → Outcome Nodes} {sub : Slice} {f : Failure}
    (hdescend : ∀ g, descend sub = .error g → ∃ e, g = .err e)
    (h : trial descend sub = .error f) : f.IsDepthLimit ∧ descend sub = .error f := by
  obtain ⟨hd,hm⟩ := trial_error_eq h
  refine ⟨?_,hd⟩
  by_contra hlimit
  exact hm (f.isMalformed_iff.mpr ⟨hdescend f hd,hlimit⟩)

/-- The error of one record: from the walk, or from the trial parse of its payload. -/
lemma decodeNode_error_cases {descend : Slice → Outcome Nodes} {r r' : Reader} {f : Failure}
    (hb : r.InBounds) (h : decodeNode descend r = .error f r') :
    scanRecord r = .error f r' ∨
    ∃ rec b r₁, r.Reads (Record.wire rec) r₁ ∧ rec.payload.value = .bytes b ∧
      trial descend b = .error f := by
  rw [decodeNode_eq,bind_eq_error_iff] at h
  rcases h with h | ⟨s,r₁,hs,hnode⟩
  · exact .inl h
  · obtain ⟨rec,hread,rfl⟩ := scanRecord_ok hb hs
    unfold Scan.node at hnode
    have hvalue : (rec.scanAt r.pos).value = rec.payload.value := rfl
    rw [hvalue] at hnode
    cases hv : rec.payload.value with
    | bytes b =>
      cases ht : trial descend b with
      | ok node =>
        simp only [hv,FieldValue.node,ht] at hnode
        cases hnode
      | error g =>
        simp only [hv,FieldValue.node,ht] at hnode
        cases hnode
        exact .inr ⟨rec,b,_,hread,hv,ht⟩
    | _ =>
      simp only [hv,FieldValue.node] at hnode
      cases hnode

/-- The same, where the recursive call does not panic: the trial parse hit the depth limit. -/
lemma decodeNode_error {descend : Slice → Outcome Nodes} {r r' : Reader} {f : Failure}
    (hdescend : ∀ sub g, descend sub = .error g → ∃ e, g = .err e) (hb : r.InBounds)
    (h : decodeNode descend r = .error f r') :
    scanRecord r = .error f r' ∧ f.IsMalformed ∨
    ∃ rec b r₁, r.Reads (Record.wire rec) r₁ ∧ rec.payload.value = .bytes b ∧
      descend b = .error f ∧ f.IsDepthLimit := by
  rcases decodeNode_error_cases hb h with hs | ⟨rec,b,r₁,hread,hv,ht⟩
  · exact .inl ⟨hs,scanRecord_error hb hs⟩
  · obtain ⟨hlimit,hd⟩ := trial_error (hdescend b) ht
    exact .inr ⟨rec,b,r₁,hread,hv,hd,hlimit⟩

/-- A buffer that consists of records is not refused for its bytes. -/
lemma readAll_not_malformed {descend : Slice → Outcome Nodes} {buf : Slice}
    {recs : List Record} {f : Failure} (hw : wires recs = buf.bytes)
    (h : readAll (decodeNode descend) buf = .error f) : ¬ f.IsMalformed := by
  obtain ⟨pre,as,r,r',hreads,-,hrest,hbody⟩ :=
    ((decodeNode_takesRecord descend).readAll_error_iff buf f).mp h
  have hb := hreads.inBounds (inBounds_new buf)
  rcases decodeNode_error_cases hb hbody with hscan | ⟨rec,c,r₁,-,-,htrial⟩
  · have hsplit : wires recs ++ [] = wires pre ++ r.rest := by
      rw [List.append_nil,hw,← rest_new,hreads.rest_eq]
    rcases Record.selfDelimiting.align hsplit with ⟨cs,-,hnil⟩ | ⟨cs,-,hr⟩
    · exact absurd (List.append_eq_nil_iff.mp hnil.symm).2 hrest
    · cases cs with
      | nil => exact absurd hr hrest
      | cons rec cs =>
        rw [List.flatMap_cons,List.append_assoc] at hr
        rw [scanRecord_reads hb (reads_of_rest hr)] at hscan
        cases hscan
  · exact (trial_error_eq htrial).2

/-- A tree decode fails because of the bytes or of the depth limit, never by a panic or a loop;
a depth error carries the caller's limit. -/
theorem parseTree_error {limit : UInt32} {budget : ℕ} {buf : Slice} {f : Failure}
    (h : parseTree limit budget buf = .error f) :
    f.IsMalformed ∨ f = .err (.depthLimitExceeded limit 0) := by
  induction budget generalizing buf f with
  | zero =>
    cases h
    exact .inr rfl
  | succ budget ih =>
    have hdescend : ∀ sub g, parseTree limit budget sub = .error g → ∃ e, g = .err e := by
      intro sub g hg
      rcases ih hg with hm | rfl
      · exact (g.isMalformed_iff.mp hm).1
      · exact ⟨_,rfl⟩
    rw [parseTree,(decodeNode_takesRecord _).readAll_error_iff] at h
    obtain ⟨recs,as,r,r',hreads,-,-,hbody⟩ := h
    rcases decodeNode_error hdescend (hreads.inBounds (inBounds_new buf)) hbody with
      ⟨-,hm⟩ | ⟨rec,b,r₁,-,-,hd,hlimit⟩
    · exact .inl hm
    · exact ih hd

lemma parseTree_error_err {limit : UInt32} {budget : ℕ} (sub : Slice) (f : Failure)
    (h : parseTree limit budget sub = .error f) : ∃ e, f = .err e := by
  rcases parseTree_error h with hm | rfl
  · exact (f.isMalformed_iff.mp hm).1
  · exact ⟨_,rfl⟩

end failures

section budgets
variable {descend descend' : Slice → Outcome Nodes}

lemma trial_sim {sub : Slice}
    (h : SimResult Eq Failure.IsDepthLimit (descend sub) (descend' sub)) :
    SimResult Eq Failure.IsDepthLimit (trial descend sub) (trial descend' sub) := by
  unfold trial
  generalize descend sub = x at h
  generalize descend' sub = y at h
  cases h with
  | ok rel =>
    subst rel
    exact .refl _
  | error f => exact .refl _
  | cut y hit =>
    obtain ⟨limit,position,rfl⟩ := (Failure.isDepthLimit_iff _).mp hit
    exact .cut _ trivial

lemma decodeNode_sim (h : ∀ sub, SimResult Eq Failure.IsDepthLimit (descend sub) (descend' sub))
    (r : Reader) :
    Sim Eq Failure.IsDepthLimit (decodeNode descend r) (decodeNode descend' r) := by
  rw [decodeNode_eq,decodeNode_eq]
  cases hs : scanRecord r with
  | error f r' =>
    rw [bind_error hs,bind_error hs]
    exact .error f r' r'
  | ok s r' =>
    rw [bind_ok hs,bind_ok hs]
    have hvalue : SimResult Eq Failure.IsDepthLimit (s.value.node (trial descend))
        (s.value.node (trial descend')) := by
      cases s.value with
      | bytes b => exact trial_sim (h b)
      | _ => exact .refl _
    unfold Scan.node
    generalize s.value.node (trial descend) = x at hvalue
    generalize s.value.node (trial descend') = y at hvalue
    cases hvalue with
    | ok rel =>
      subst rel
      exact .ok r' rfl
    | error f => exact .error f r' r'
    | cut y hit => exact .cut r' _ hit

/-- Under a larger budget, and whatever the limits are called, a tree decode answers the same
unless it had hit the depth limit. -/
theorem parseTree_mono (limit limit' : UInt32) {budget budget' : ℕ} (hle : budget ≤ budget')
    (buf : Slice) :
    SimResult Eq Failure.IsDepthLimit (parseTree limit budget buf)
      (parseTree limit' budget' buf) := by
  induction budget generalizing budget' buf with
  | zero => exact .cut _ trivial
  | succ budget ih =>
    obtain ⟨budget',rfl⟩ : ∃ k, budget' = k + 1 := ⟨budget' - 1,by omega⟩
    have hdescend : ∀ sub, SimResult Eq Failure.IsDepthLimit (parseTree limit budget sub)
        (parseTree limit' budget' sub) := fun sub => ih (by omega) sub
    have hstay : ∀ r a r', r.InBounds → decodeNode (parseTree limit budget) r = .ok a r' →
        r'.InBounds := fun _ _ _ hb hx => (decodeNode_takesRecord _).inBounds hb hx
    have hsim : SimResult (List.Forall₂ Eq) Failure.IsDepthLimit
        (drain loop (decodeNode (parseTree limit budget)) (new buf) [])
        (drain loop (decodeNode (parseTree limit' budget')) (new buf) []) :=
      drain_sim hstay (fun r _ _ => decodeNode_sim hdescend r) (inBounds_new buf) .nil
    rwa [List.forall₂_eq_eq_eq] at hsim

theorem decodeTree_mono {d d' : UInt32} (hle : d ≤ d') (hd' : d' < 4294967295) (buf : Slice) :
    SimResult Eq Failure.IsDepthLimit (decodeTree buf d) (decodeTree buf d') := by
  rw [decodeTree_eq_parseTree (UInt32.lt_of_le_of_lt hle hd'),decodeTree_eq_parseTree hd']
  exact parseTree_mono d d' (Nat.succ_le_succ hle) buf

end budgets
end SignalisCodec

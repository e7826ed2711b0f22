import CBase.NetSim.Accounts

/-!
# The queue cap

`cb_netsim_send_to` compares the queue cap with the bytes in flight and one copy. A send `Overfills` an
endpoint if that copy fits, the duplicate roll hits, and both copies do not fit. A run keeps every
endpoint within the cap if and only if none of its sends does that.
-/

namespace CBase.NetSim

/-- The draws of a datagram of `len` bytes end in a duplicate. -/
def duplicates (rng : Rng) (params : Params) (len : Nat) : Bool :=
  let (drop, rng) := rng.chanceFx16 params.dropProb
  !drop && (rollCopy rng params len 0).any fun (_, rng) => (rng.chanceFx16 params.dupProb).1

/-- Both copies of a datagram get memory. -/
def Granted (env : Env) (requests : Nat) (buf : List UInt8) : Prop :=
  (∀ n ∈ copyRequests requests buf, env.memory n = true) ∧
    ∀ n ∈ copyRequests (requests + (copyRequests requests buf).length) buf, env.memory n = true

/-- A send of two copies, of which only one fits under the cap. -/
def Overfills (env : Env) (net : Net) : Call → Prop
  | .send ep dest buf =>
    (∃ e, Admitted ep buf e) ∧ (readyList net dest).isSome ∧
    inFlight net dest + buf.length ≤ net.params.maxQueueBytes.toNat ∧
    net.params.maxQueueBytes.toNat < inFlight net dest + 2 * buf.length ∧
    duplicates net.rng net.params buf.length = true ∧ Granted env net.requests buf
  | _ => False

/-- The clock reading does not take part in the draws. -/
theorem rollCopy_now {rng rng' : Rng} {params : Params} {len : Nat} {now : UInt64} {r : Rolls}
    (h : rollCopy rng params len now = some (r, rng')) (now' : UInt64) :
    rollCopy rng params len now' = some ({ r with now := now' }, rng') := by
  unfold rollCopy at h ⊢
  simp only [Option.bind_eq_bind, Option.pure_def, Option.bind_eq_some_iff, Option.some.injEq,
    Prod.mk.injEq] at h
  obtain ⟨⟨lms, rng₁⟩, hlms, ⟨flip, rng₂⟩, hflip, ⟨swap, rng₃⟩, hswap, rfl, rfl⟩ := h
  simp [hlms, hflip, hswap]

section Sends

variable {env : Env} {src dest : Addr} {buf : List UInt8} {now : UInt64} {s s' : Sim}

/-- The duplicate roll comes after the rolls of the first copy. -/
theorem duplicates_of_roll {rng : Rng} (hdrop : rng.chanceFx16 s.params.dropProb = (false, s.rng))
    {r : Rolls} {rng₁ : Rng} (h : rollCopy s.rng s.params buf.length now = some (r, rng₁)) :
    duplicates rng s.params buf.length = (rng₁.chanceFx16 s.params.dupProb).1 := by
  simp [duplicates, hdrop, rollCopy_now h 0]

/-- A send has two copies if the duplicate roll hits and there is memory for both. -/
theorem Sent.double_iff {rng : Rng} {out : Info × List Rolls} (h : Sent env src dest buf now s out s')
    (hdrop : rng.chanceFx16 s.params.dropProb = (false, s.rng)) :
    out.2.length = 2 ↔
      duplicates rng s.params buf.length = true ∧ Granted env s.requests buf := by
  cases h with
  | failed hnone =>
    obtain ⟨n, hn, -, hno⟩ := hnone.denied
    exact ⟨nofun, fun h => absurd (h.2.1 n hn) hno⟩
  | single hfirst hdup =>
    cases hfirst with
    | copy hfirst =>
      refine ⟨nofun, fun h => ?_⟩
      have hhit := (congrArg Prod.fst hdup).symm.trans ((duplicates_of_roll hdrop hfirst).symm.trans h.1)
      cases hhit
  | half hfirst hdup hnone =>
    cases hfirst with
    | copy hfirst =>
      obtain ⟨n, hn, -, hno⟩ := hnone.denied
      exact ⟨nofun, fun h => absurd (h.2.2 n hn) hno⟩
  | double hfirst hdup hsecond =>
    cases hfirst with
    | copy hfirst hmem =>
      cases hsecond with
      | copy hsecond hmem' =>
        have hdouble := (duplicates_of_roll hdrop hfirst).trans (congrArg Prod.fst hdup)
        exact ⟨fun _ => ⟨hdouble, hmem, hmem'⟩, fun _ => rfl⟩

theorem inFlight_posts {v : View} (rolls : List Rolls) (brk : Nat) (a : Addr) :
    ((copiesOf brk src dest buf rolls).foldl View.post v).inFlight a =
      v.inFlight a + if a = dest then rolls.length * buf.length else 0 := by
  induction rolls generalizing v brk with
  | nil => simp [copiesOf]
  | cons r rolls ih =>
    have hcopies : copiesOf brk src dest buf (r :: rolls) =
        (brk, r.node src dest buf) :: copiesOf (brk + 1) src dest buf rolls := by
      simp [copiesOf, List.mapIdx_cons, Nat.add_assoc, Nat.add_comm 1]
    have hdest : NetSim.dest (brk, r.node src dest buf) = dest := rfl
    have hlen : (r.node src dest buf).len = buf.length := rfl
    rw [hcopies, List.foldl_cons, ih, View.inFlight_post, hdest, hlen]
    split
    · rw [List.length_cons, Nat.add_mul, Nat.one_mul]
      omega
    · rfl

theorem overCap_iff {params : Params} {bytes : UInt64} {len : Nat} (hmax : params.maxQueueBytes ≠ 0)
    (hbytes : bytes.toNat ≤ params.maxQueueBytes.toNat) (hlen : len ≤ maxDatagramBytes) :
    overCap params bytes len = true ↔ params.maxQueueBytes.toNat < bytes.toNat + len := by
  have hbound := params.maxQueueBytes.toNat_lt
  have hsum : (bytes + UInt64.ofNat len).toNat = bytes.toNat + len := by
    unfold maxDatagramBytes at hlen
    rw [UInt64.toNat_add, UInt64.toNat_ofNat', Nat.add_mod_mod]
    exact Nat.mod_eq_of_lt (by omega)
  unfold overCap
  rw [decide_eq_true_iff, UInt64.lt_iff_toNat_lt, hsum, UInt32.toNat_toUInt64]
  exact and_iff_right hmax

def Sim.Overfills (env : Env) (s : Sim) : Call → Prop
  | .send ep dest buf =>
    (∃ e, Admitted ep buf e) ∧ (s.box dest).isSome ∧
    s.inFlight dest + buf.length ≤ s.params.maxQueueBytes.toNat ∧
    s.params.maxQueueBytes.toNat < s.inFlight dest + 2 * buf.length ∧
    duplicates s.rng s.params buf.length = true ∧ Granted env s.requests buf
  | _ => False

theorem Laid.overfills_iff {net : Net} {v : View} (h : Laid net v) (call : Call) :
    Overfills env net call ↔ (net.sim v).Overfills env call := by
  cases call with
  | send ep dest buf =>
    have hbound : (readyList net dest).isSome = (v.box dest).isSome := by
      rw [h.readyList_eq, View.mail, Option.isSome_map]
    simp only [Overfills, Sim.Overfills, hbound, h.inFlight_eq]
    rfl
  | _ => exact Iff.rfl

/-- A send with room for one copy leaves every endpoint within the cap, if it does not have two copies of
which only one fits. -/
theorem Sent.cap_iff {out : Info × List Rolls} {cap : Nat} (h : Sent env src dest buf now s out s')
    (hcap : ∀ a, s.inFlight a ≤ cap) (hfits : s.inFlight dest + buf.length ≤ cap) :
    (∀ a, s'.inFlight a ≤ cap) ↔
      ¬ (out.2.length = 2 ∧ cap < s.inFlight dest + 2 * buf.length) := by
  have hview (a : Addr) : s'.inFlight a =
      s.inFlight a + if a = dest then out.2.length * buf.length else 0 := by
    rw [h.frame.view]
    exact inFlight_posts _ _ a
  have hfew := h.frame.few
  have hat := hview dest
  rw [if_pos rfl] at hat
  have hother : (∀ a, s'.inFlight a ≤ cap) ↔ s'.inFlight dest ≤ cap := by
    refine ⟨fun hall => hall dest, fun hdest a => ?_⟩
    by_cases ha : a = dest
    · rw [ha]
      exact hdest
    · rw [hview, if_neg ha]
      exact hcap a
  rw [hother, hat]
  by_cases htwo : out.2.length = 2
  · rw [htwo, ← Nat.not_lt]
    exact not_congr (and_iff_right rfl).symm
  · have hone : out.2.length * buf.length ≤ 1 * buf.length := Nat.mul_le_mul_right _ (by omega)
    exact iff_of_true (by omega) fun h => htwo h.1

/-- A call leaves every endpoint within the cap, if it does not overfill one. -/
theorem Effect.cap_iff {act : Call × Reply} (h : Effect env s act s') (hopen : s.Open)
    (hacc : s.Accounted) (hmax : s.params.maxQueueBytes ≠ 0)
    (hcap : ∀ a, s.inFlight a ≤ s.params.maxQueueBytes.toNat) :
    (∀ a, s'.inFlight a ≤ s.params.maxQueueBytes.toNat) ↔ ¬ s.Overfills env act.1 := by
  have hkept (hle : ∀ a, s'.inFlight a ≤ s.inFlight a) (hnot : ¬ s.Overfills env act.1) :
      (∀ a, s'.inFlight a ≤ s.params.maxQueueBytes.toNat) ↔ ¬ s.Overfills env act.1 :=
    iff_of_true (fun a => (hle a).trans (hcap a)) hnot
  cases h with
  | idle hquiet =>
    refine hkept (fun a => Nat.le_refl _) ?_
    cases hquiet with
    | refused hinfo hno =>
      rintro ⟨⟨e, hadmitted⟩, -⟩
      exact hno e hadmitted
    | _ => exact id
  | unbindable => exact hkept (fun a => Nat.le_refl _) id
  | bound hb => exact hkept (fun a => (View.inFlight_bind hb _ a).le) id
  | closed =>
    refine hkept (fun a => ?_) id
    rw [View.inFlight_close]
    split
    · exact Nat.zero_le _
    · exact Nat.le_refl _
  | unbound hadmitted hb =>
    refine hkept (fun a => Nat.le_refl _) ?_
    rintro ⟨-, hbound, -⟩
    rw [hb] at hbound
    cases hbound
  | full hadmitted hb hfull =>
    refine hkept (fun a => Nat.le_refl _) ?_
    rintro ⟨-, -, hroom, -⟩
    have hbytes := hacc _ _ hb
    rw [overCap_iff hmax (hbytes ▸ hcap _) hadmitted.2.2, hbytes] at hfull
    exact Nat.not_le.mpr hfull hroom
  | dropped hadmitted hb hroom hdrop =>
    refine hkept (fun a => Nat.le_refl _) ?_
    rintro ⟨-, -, -, -, hdup, -⟩
    unfold duplicates at hdup
    rw [hdrop] at hdup
    cases hdup
  | @sent ep e dest buf b rng out s' hadmitted hb hroom hdrop hsent =>
    have hbytes := hacc _ _ hb
    have hfits : s.inFlight dest + buf.length ≤ s.params.maxQueueBytes.toNat := by
      have hno := mt (overCap_iff hmax (hbytes ▸ hcap dest) hadmitted.2.2).mpr (by rw [hroom]; nofun)
      rw [hbytes] at hno
      exact Nat.not_lt.mp hno
    refine (hsent.cap_iff hcap hfits).trans (not_congr ⟨fun ⟨htwo, hover⟩ => ?_, fun hover => ?_⟩)
    · refine ⟨⟨e, hadmitted⟩, by rw [hb]; rfl, hfits, hover, ?_⟩
      exact (hsent.double_iff hdrop).mp htwo
    · obtain ⟨-, -, -, hlarge, hdraws⟩ := hover
      exact ⟨(hsent.double_iff hdrop).mpr hdraws, hlarge⟩
  | stepped => exact hkept (fun a => (View.inFlight_deliver _ hopen a).le) id
  | received hat hb hready =>
    refine hkept (fun a => ?_) id
    rw [View.inFlight_take 0 hb hready a]
    exact Nat.le_add_right _ _
  | configured => exact hkept (fun a => Nat.le_refl _) id
  | flushed => exact hkept (fun a => by rw [View.inFlight_clear]; exact Nat.zero_le _) id

/-- Only `cb_netsim_set_params` changes the parameters. -/
theorem Effect.params {act : Call × Reply} (h : Effect env s act s') :
    s'.params = s.params ∨ ∃ p, act.1 = .setParams p ∧ s'.params = p := by
  cases h with
  | sent hadmitted hb hroom hdrop hsent => exact .inl hsent.frame.params
  | configured => exact .inr ⟨_, rfl, rfl⟩
  | _ => exact .inl rfl

end Sends

section Runs

variable {env : Env} {seed : UInt64} {params : Params} {net : Net} {h : Calls}

/-- The call does not set another `max_queue_bytes`. -/
def Call.keepsCap (cap : UInt32) : Call → Bool
  | .setParams params => params.maxQueueBytes = cap
  | _ => true

def KeepsCap (cap : UInt32) (h : Calls) : Prop := ∀ t ∈ h, t.label.1.keepsCap cap = true

instance (cap : UInt32) (h : Calls) : Decidable (KeepsCap cap h) := List.decidableBAll _ h

theorem Run.keepsCap (hrun : Run (Exec env) (create seed params) h net)
    (hkeeps : KeepsCap params.maxQueueBytes h) : net.params.maxQueueBytes = params.maxQueueBytes := by
  refine hrun.invariant_hist (fun h net => KeepsCap params.maxQueueBytes h →
    net.params.maxQueueBytes = params.maxQueueBytes) (fun _ => rfl) ?_ hkeeps
  rintro h net act net' hr ih hexec hkeeps
  obtain ⟨v, hlaid⟩ := Run.laid hr
  obtain ⟨v', -, heffect⟩ := hlaid.exec hexec
  rcases heffect.params with hsame | ⟨p, hcall, hp⟩
  · have hparams : net'.params = net.params := hsame
    rw [hparams]
    exact ih fun t ht => hkeeps t (List.mem_append_left _ ht)
  · have hparams : net'.params = p := hp
    rw [hparams]
    have hkept := hkeeps _ (List.mem_append_right _ (List.mem_singleton_self _))
    simp only [hcall] at hkept
    exact of_decide_eq_true hkept

/-- The run keeps every endpoint within the cap. -/
def Within (cap : UInt32) (h : Calls) : Prop := ∀ t ∈ h, ∀ a, inFlight t.post a ≤ cap.toNat

theorem Run.within {cap : UInt32} (hrun : Run (Exec env) (create seed params) h net)
    (hwithin : Within cap h) :
    ∃ v, Laid net v ∧ v.Accounted ∧ ∀ a, v.inFlight a ≤ cap.toNat := by
  obtain ⟨v, hlaid, hacc⟩ := Run.accounted hrun fun t ht a => by
    have hcap := cap.toNat_lt
    have hle := hwithin t ht a
    omega
  have hlast : ∀ a, inFlight net a ≤ cap.toNat := by
    refine hrun.invariant_hist (fun h net => Within cap h → ∀ a, inFlight net a ≤ cap.toNat)
      (fun _ a => ?_) (fun h net act net' _ _ _ hwithin => ?_) hwithin
    · rw [(Laid.create seed params).inFlight_eq]
      exact Nat.zero_le _
    · exact hwithin _ (List.mem_append_right _ (List.mem_singleton_self _))
  exact ⟨v, hlaid, hacc, fun a => hlaid.inFlight_eq a ▸ hlast a⟩

/-- The next call keeps every endpoint within the cap if it does not overfill one. -/
theorem Run.cap_iff {act : Call × Reply} {net' : Net}
    (hrun : Run (Exec env) (create seed params) h net) (hmax : params.maxQueueBytes ≠ 0)
    (hkeeps : KeepsCap params.maxQueueBytes h) (hwithin : Within params.maxQueueBytes h)
    (hexec : Exec env net act net') :
    (∀ a, inFlight net' a ≤ params.maxQueueBytes.toNat) ↔ ¬ Overfills env net act.1 := by
  obtain ⟨v, hlaid, hacc, hcap⟩ := Run.within hrun hwithin
  obtain ⟨v', hlaid', heffect⟩ := hlaid.exec hexec
  have hsame := Run.keepsCap hrun hkeeps
  rw [← hsame] at hmax hcap ⊢
  have hiff := heffect.cap_iff hlaid.open' hacc hmax hcap
  rw [hlaid.overfills_iff, ← hiff]
  exact forall_congr' fun a => by rw [hlaid'.inFlight_eq]; rfl

/-- For every run that leaves a nonzero `max_queue_bytes` as it is: every endpoint is within the cap in
every state reached if and only if no send overfills one. -/
theorem queue_cap_iff (hrun : Run (Exec env) (create seed params) h net)
    (hmax : params.maxQueueBytes ≠ 0) (hkeeps : KeepsCap params.maxQueueBytes h) :
    (∀ t ∈ h, ∀ a, inFlight t.post a ≤ params.maxQueueBytes.toNat) ↔
      ∀ t ∈ h, ¬ Overfills env t.pre t.label.1 := by
  constructor
  · intro hwithin t ht
    obtain ⟨h₁, h₂, rfl⟩ := List.append_of_mem ht
    obtain ⟨hbefore, hexec, -⟩ := hrun.at_entry
    have hleft {s : Taken Net (Call × Reply)} (hs : s ∈ h₁) : s ∈ h₁ ++ t :: h₂ :=
      List.mem_append_left _ hs
    exact (Run.cap_iff hbefore hmax (fun s hs => hkeeps s (hleft hs))
      (fun s hs => hwithin s (hleft hs)) hexec).mp (hwithin t ht)
  · refine hrun.invariant_hist (fun h _ => KeepsCap params.maxQueueBytes h →
      (∀ t ∈ h, ¬ Overfills env t.pre t.label.1) → Within params.maxQueueBytes h)
      (fun _ _ t ht => absurd ht List.not_mem_nil) ?_ hkeeps
    intro h net act net' hr ih hexec hkeeps hnever t ht
    have hkeeps' : KeepsCap params.maxQueueBytes h := fun t ht => hkeeps t (List.mem_append_left _ ht)
    have hwithin := ih hkeeps' fun t ht => hnever t (List.mem_append_left _ ht)
    rcases List.mem_append.mp ht with ht | ht
    · exact hwithin t ht
    · rw [List.mem_singleton.mp ht]
      refine (Run.cap_iff hr hmax hkeeps' hwithin hexec).mpr ?_
      exact hnever _ (List.mem_append_right _ (List.mem_singleton_self _))

/-- Two copies of one byte with room for one. -/
theorem queue_cap_overfilled :
    ∃ h net, Run (Exec (still 0)) (create 0 { calm with dupProb := 65536, maxQueueBytes := 1 }) h net ∧
      KeepsCap 1 h ∧ 1 < inFlight net ⟨1, 2⟩ := by
  let ep : Handle := ⟨.ok, true, ⟨1, 2⟩⟩
  let calls : List Call := [.bind ⟨1, 2⟩, .send (some ep) ⟨1, 2⟩ [7]]
  exact @script_reaches (still 0) (create 0 { calm with dupProb := 65536, maxQueueBytes := 1 })
    (fun h net => KeepsCap 1 h ∧ 1 < inFlight net ⟨1, 2⟩) _ calls (by decide +kernel)

/-- One copy of one byte with room for one. -/
theorem queue_cap_filled :
    ∃ h net, Run (Exec (still 0)) (create 0 { calm with maxQueueBytes := 1 }) h net ∧
      inFlight net ⟨1, 2⟩ = 1 ∧ ∀ t ∈ h, ¬ Overfills (still 0) t.pre t.label.1 := by
  let ep : Handle := ⟨.ok, true, ⟨1, 2⟩⟩
  let calls : List Call := [.bind ⟨1, 2⟩, .send (some ep) ⟨1, 2⟩ [7]]
  obtain ⟨h, net, hrun, hfilled, hkeeps, hload⟩ := @script_reaches (still 0)
    (create 0 { calm with maxQueueBytes := 1 }) (fun h net => inFlight net ⟨1, 2⟩ = 1 ∧ KeepsCap 1 h ∧
      ∀ t ∈ h, load (stored t.post) ≤ 1) _ calls (by decide +kernel)
  refine ⟨h, net, hrun, hfilled, (queue_cap_iff hrun (by decide) hkeeps).mp fun t ht a => ?_⟩
  obtain ⟨h₁, h₂, rfl⟩ := List.append_of_mem ht
  obtain ⟨-, -, v', -, hlaid', -⟩ := Run.entry hrun
  exact (hlaid'.inFlight_le a).trans (hload t ht)

end Runs

end CBase.NetSim

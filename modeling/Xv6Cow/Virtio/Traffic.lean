import Xv6Cow.Virtio.Descriptors

/-! # The rings and the device, step by step

One lemma for each kind of step that changes what is under way: the driver publishes a head, the
device takes one, completes one and posts it, and the handler sees one.  The other steps change only
the descriptors and the records of one call (`Traffic.local`), and leave the heads under way as they
are.

The device moves heads from one place to the next, so that `State.flight` is permuted.  There is
always room in both rings, since the heads under way are distinct and a head that is about to be
written is not among them. -/

namespace Xv6Cow.Virtio

open RingIndex
open Function (update update_self update_of_ne)

variable {s : State} {st st' : ℕ → Stage} {p q h k : ℕ} {c d : Chain} {w : Bool}

theorem NUM_dvd_IDX : NUM ∣ IDX := by decide

theorem next_lt (i : ℕ) : (i + 1) % IDX < IDX := Nat.mod_lt _ (by decide)

/-! ### Steps of one call -/

theorem Built.congr {desc desc' : ℕ → Desc} {info info' : ℕ → Info} (hb : Built desc info c)
    (hd : ∀ i ∈ c.idx, desc' i = desc i) (hi : (info' c.i0).b = (info c.i0).b) :
    Built desc' info' c := by
  have h0 := hd c.i0 (by simp [Chain.idx])
  have h1 := hd c.i1 (by simp [Chain.idx])
  have h2 := hd c.i2 (by simp [Chain.idx])
  exact ⟨h0 ▸ hb.head, h1 ▸ hb.data, h2 ▸ hb.tail, hi.trans hb.info⟩

theorem update_eq {x y : Stage} (hq : update st p x q = y) : q = p ∧ x = y ∨ q ≠ p ∧ st q = y := by
  rcases eq_or_ne q p with rfl | hne
  · exact Or.inl ⟨rfl, by rwa [update_self] at hq⟩
  · exact Or.inr ⟨hne, by rwa [update_of_ne hne] at hq⟩

theorem update_view {x : Stage} {f : Stage → Option Chain} (hq : f (update st p x q) = some d) :
    q = p ∧ f x = some d ∨ q ≠ p ∧ f (st q) = some d := by
  rcases update_eq (rfl : update st p x q = _) with ⟨he, hx⟩ | ⟨hne, hx⟩
  · exact Or.inl ⟨he, hx ▸ hq⟩
  · exact Or.inr ⟨hne, hx ▸ hq⟩

/-- What the new stage shows as the old one did is what it was. -/
theorem view_update (x : Stage) (f : Stage → Option Chain) {y : Stage} (hp : st p = y)
    (hf : f x = f y) : f (update st p x q) = some d ↔ f (st q) = some d := by
  rcases eq_or_ne q p with rfl | hne
  · rw [update_self, hp, hf]
  · rw [update_of_ne hne]

theorem Owned.disjoint {free : ℕ → Bool} (ho : Owned free st) (hc : (st p).chain = some c)
    (hd : (st q).chain = some d) (hne : q ≠ p) : ∀ i ∈ d.idx, i ∉ c.idx :=
  fun _ hi hin => hne (ho.apart hd hc hi hin)

theorem Chain.i0_mem (c : Chain) : c.i0 ∈ c.idx := List.mem_cons_self

theorem Traffic.local (ht : Traffic s st) {desc : ℕ → Desc} {availRing : ℕ → ℕ} {free : ℕ → Bool}
    {info : ℕ → Info} {ops : ℕ → BlkReq} {busy : ℕ → Bool} {holder : ℕ → Option ℕ}
    {lock : Option Actor} {pcs : ℕ → Pc} (hbuilt : ∀ q d, (st' q).written = some d → Built desc info d)
    (hbusy : ∀ q d, (st' q).private = some d → busy d.buf = true)
    (hringed : ∀ q d, st' q = .ringed d → availRing (s.availIdx % NUM) = d.i0)
    (hqueue : window NUM IDX availRing s.lastAvail s.availIdx = s.queue)
    (hstatus : ∀ h ∈ s.ready, (info h).status = (s.info h).status)
    (hpub : ∀ q d, (st' q).public = some d → (st q).public = some d)
    (hlive : ∀ q d, (st q).public = some d → s.busy d.buf = true → (st' q).public = some d)
    (hsame : ∀ q d, (st q).public = some d → busy d.buf = s.busy d.buf)
    (hclosing : ∀ q d, st' q = .closing d → busy d.buf = false) :
    Traffic { s with
      desc := desc, availRing := availRing, free := free, info := info, ops := ops, busy :=
        busy, holder := holder,
      lock := lock, pcs := pcs } st' := by
  have hflight : State.flight { s with
      desc := desc, availRing := availRing, free := free, info := info, ops := ops, busy :=
        busy, holder := holder,
      lock := lock, pcs := pcs } = s.flight := by
    show window NUM IDX availRing s.lastAvail s.availIdx ++ s.taken ++ s.ready = s.flight
    rw [hqueue]
    rfl
  refine ⟨hbuilt, hbusy, hringed, hflight ▸ ht.nodup, ?_, ht.posting, ?_, ?_, hclosing, ht.avail,
    ht.last, ht.used, ht.seen, ht.body⟩
  · intro h
    rw [hflight, ht.flight h]
    constructor
    · rintro ⟨q, d, hd, rfl, hb⟩
      exact ⟨q, d, hlive q d hd hb, rfl, (hsame q d hd).trans hb⟩
    · rintro ⟨q, d, hd, rfl, hb⟩
      exact ⟨q, d, hpub q d hd, rfl, (hsame q d (hpub q d hd)).symm.trans hb⟩
  · intro h hh
    exact (hstatus h hh).trans (ht.status h hh)
  · intro q d hd hor
    refine ht.done q d (hpub q d hd) (hor.imp id (fun hb => ?_))
    exact (hsame q d (hpub q d hd)).symm.trans hb

/-- A step that changes no stage, or takes a call into or out of the stages before the descriptors
are written. -/
theorem Traffic.stay (ht : Traffic s st) {desc : ℕ → Desc} {free : ℕ → Bool} {ops : ℕ → BlkReq}
    {holder : ℕ → Option ℕ} {lock : Option Actor} {pcs : ℕ → Pc}
    (hdesc : ∀ q d, (st q).written = some d → ∀ i ∈ d.idx, desc i = s.desc i)
    (hst : ∀ q, st' q = st q ∨ (st q).written = none ∧ (st' q).written = none) :
    Traffic { s with
      desc := desc, free := free, ops := ops, holder := holder, lock := lock, pcs := pcs } st' := by
  have hsame : ∀ q d, (st' q).written = some d → st' q = st q := by
    intro q d hd
    rcases hst q with he | ⟨-, hn⟩
    · exact he
    · rw [hn] at hd
      exact absurd hd (by simp)
  have hsame' : ∀ q d, (st q).written = some d → st' q = st q := by
    intro q d hd
    rcases hst q with he | ⟨hn, -⟩
    · exact he
    · rw [hn] at hd
      exact absurd hd (by simp)
  refine ht.local ?_ ?_ ?_ rfl (fun _ _ => rfl) ?_ ?_ (fun _ _ _ => rfl) ?_
  · intro q d hd
    have hd' := hsame q d hd ▸ hd
    exact (ht.built q d hd').congr (hdesc q d hd') rfl
  · intro q d hd
    exact ht.busy q d (hsame q d (written_of_private hd) ▸ hd)
  · intro q d hd
    exact ht.ringed q d (hsame q d (by rw [hd]; rfl) ▸ hd)
  · intro q d hd
    exact hsame q d (written_of_public hd) ▸ hd
  · intro q d hd _
    rw [hsame' q d (written_of_public hd)]
    exact hd
  · intro q d hd
    exact ht.closing q d (hsame q d (by rw [hd]; rfl) ▸ hd)

theorem built_format (hnd : c.idx.Nodup) : Built (format s c w).desc (format s c w).info c := by
  simp only [Chain.idx, List.nodup_cons, List.mem_cons, List.not_mem_nil, or_false, not_or] at hnd
  obtain ⟨⟨h01, h02⟩, h12, -⟩ := hnd
  refine ⟨?_, ?_, ?_, ?_⟩
  · simp [format, h01, h02, Desc.more, VRING_DESC_F_NEXT]
  · cases w <;> simp [format, h12, Desc.more, VRING_DESC_F_NEXT, VRING_DESC_F_WRITE]
  · simp [format, Desc.more, VRING_DESC_F_WRITE]
  · simp [format]

theorem format_desc (h : k ∉ c.idx) : (format s c w).desc k = s.desc k := by
  simp only [Chain.idx, List.mem_cons, List.not_mem_nil, or_false, not_or] at h
  simp [format, h.1, h.2.1, h.2.2]

/-- There is room in the avail ring for a head that has not been published. -/
theorem Traffic.room {free : ℕ → Bool} (ht : Traffic s st) (ho : Owned free st)
    (hchain : (st p).chain = some c) (hpub : (st p).public = none) :
    count IDX s.lastAvail s.availIdx < NUM := by
  have hlen := length_lt ht.nodup (ht.small ho) (ht.not_flight ho hchain hpub) (ho.i0_lt hchain)
  simp only [State.flight, State.queue, List.length_append, length_window] at hlen
  omega

section calls
variable (ht : Traffic s s.stages) (ho : Owned s.free s.stages) (hl : Locks s)
include ht ho hl

theorem Traffic.format (hp : s.pcs p = .format c w) :
    Traffic ((format s c w).setPc p (.ring c)) (update s.stages p (.built c)) := by
  have hstage : s.stages p = .owns c := stages_of hp
  have hchain : (s.stages p).chain = some c := by rw [hstage]; rfl
  have hinfo : ∀ k ≠ c.i0, (Virtio.format s c w).info k = s.info k := fun k hk => update_of_ne hk _ _
  have hbusy : ∀ q d, q ≠ p → (s.stages q).chain = some d → (Virtio.format s c w).busy d.buf =
      s.busy d.buf :=
    fun q d hne hd => update_of_ne (fun he => hne (hl.buf_inj hd hchain he)) _ _
  have hpub : ∀ q d, (s.stages q).public = some d → q ≠ p := by
    rintro q d hd rfl
    rw [hstage] at hd
    exact absurd hd (by simp [Stage.public])
  refine ht.local ?_ ?_ ?_ rfl ?_ ?_ ?_ ?_ ?_
  · intro q d hd
    rcases update_view hd with ⟨-, hx⟩ | ⟨hne, hd⟩
    · obtain rfl := Option.some.inj hx
      exact built_format (ho.nodup hchain)
    · have hdis := ho.disjoint hchain (chain_of_written hd) hne
      refine (ht.built q d hd).congr (fun i hi => format_desc (hdis i hi)) ?_
      rw [hinfo d.i0 (fun he => hdis d.i0 d.i0_mem (he ▸ c.i0_mem))]
  · intro q d hd
    rcases update_view hd with ⟨-, hx⟩ | ⟨hne, hd⟩
    · obtain rfl := Option.some.inj hx
      exact update_self _ _ _
    · exact (hbusy q d hne (chain_of_written (written_of_private hd))).trans (ht.busy q d hd)
  · intro q d hd
    rcases update_eq hd with ⟨-, hx⟩ | ⟨-, hd⟩
    · exact absurd hx (by simp)
    · exact ht.ringed q d hd
  · intro h hh
    have hne : h ≠ c.i0 := by
      rintro rfl
      exact ht.not_flight ho hchain (by rw [hstage]; rfl) (List.mem_append_right _ hh)
    exact congrArg Info.status (hinfo h hne)
  · intro q d hd
    rcases update_view hd with ⟨-, hx⟩ | ⟨-, hd⟩
    · exact absurd hx (by simp [Stage.public])
    · exact hd
  · intro q d hd _
    rwa [update_of_ne (hpub q d hd)]
  · intro q d hd
    exact hbusy q d (hpub q d hd) (chain_of_written (written_of_public hd))
  · intro q d hd
    rcases update_eq hd with ⟨-, hx⟩ | ⟨hne, hd⟩
    · exact absurd hx (by simp)
    · exact (hbusy q d hne (by rw [hd]; rfl)).trans (ht.closing q d hd)

theorem Traffic.ring (hp : s.pcs p = .ring c) :
    Traffic ({ s with availRing := update s.availRing (s.availIdx % NUM) c.i0 }.setPc p
      (.publish c)) (update s.stages p (.ringed c)) := by
  have hstage : s.stages p = .built c := stages_of hp
  have hroom := ht.room ho (p := p) (c := c) (by rw [hstage]; rfl) (by rw [hstage]; rfl)
  refine ht.local ?_ ?_ ?_ (window_write ht.last ht.avail NUM_dvd_IDX hroom) (fun _ _ => rfl) ?_ ?_
    (fun _ _ _ => rfl) ?_
  · intro q d hd
    exact ht.built q d ((view_update (.ringed c) Stage.written hstage rfl).mp hd)
  · intro q d hd
    exact ht.busy q d ((view_update (.ringed c) Stage.private hstage rfl).mp hd)
  · intro q d hd
    rcases update_eq hd with ⟨-, hx⟩ | ⟨hne, hd⟩
    · obtain rfl := Stage.ringed.inj hx
      exact update_self _ _ _
    · exact absurd (hl.one (locked_of_ringed hd) (by rw [hp]; rfl)) hne
  · intro q d hd
    exact (view_update (.ringed c) Stage.public hstage rfl).mp hd
  · intro q d hd _
    exact (view_update (.ringed c) Stage.public hstage rfl).mpr hd
  · intro q d hd
    rcases update_eq hd with ⟨-, hx⟩ | ⟨-, hd⟩
    · exact absurd hx (by simp)
    · exact ht.closing q d hd

theorem Traffic.publish (hp : s.pcs p = .publish c) :
    Traffic ({ s with availIdx := (s.availIdx + 1) % IDX, done := update s.done c.i0 false }.setPc p
      (.wait c)) (update s.stages p (.sent c)) := by
  have hstage : s.stages p = .ringed c := stages_of hp
  have hchain : (s.stages p).chain = some c := by rw [hstage]; rfl
  have hpub : (s.stages p).public = none := by rw [hstage]; rfl
  have hbusy : s.busy c.buf = true := ht.busy p c (by rw [hstage]; rfl)
  have hout := ht.not_flight ho hchain hpub
  have hroom := ht.room ho hchain hpub
  set t := { s with availIdx := (s.availIdx + 1) % IDX, done := update s.done c.i0 false }.setPc p
    (.wait c) with htdef
  have hqueue : t.queue = s.queue ++ [c.i0] := by
    have hadv := window_advance ht.last ht.avail NUM_dvd_IDX
      ((Nat.succ_le_of_lt hroom).trans_lt (by decide)) (r := s.availRing)
    rwa [ht.ringed p c hstage] at hadv
  have hflight : t.flight.Perm (c.i0 :: s.flight) := by
    show (t.queue ++ s.taken ++ s.ready).Perm _
    rw [hqueue]
    simp only [State.flight, List.append_assoc, List.singleton_append]
    exact List.perm_middle
  refine ⟨?_, ?_, ?_, ?_, ?_, ht.posting, ht.status, ?_, ?_, next_lt _, ht.last, ht.used, ht.seen,
    ht.body⟩
  · intro q d hd
    rcases update_view hd with ⟨rfl, hx⟩ | ⟨-, hd⟩
    · exact ht.built q d (by rw [hstage]; exact hx)
    · exact ht.built q d hd
  · intro q d hd
    rcases update_view hd with ⟨-, hx⟩ | ⟨-, hd⟩
    · exact absurd hx (by simp [Stage.private])
    · exact ht.busy q d hd
  · intro q d hd
    rcases update_eq hd with ⟨-, hx⟩ | ⟨hne, hd⟩
    · exact absurd hx (by simp)
    · exact absurd (hl.one (locked_of_ringed hd) (by rw [hp]; rfl)) hne
  · exact hflight.nodup_iff.mpr (List.nodup_cons.mpr ⟨hout, ht.nodup⟩)
  · intro h
    rw [hflight.mem_iff, List.mem_cons, ht.flight h]
    constructor
    · rintro (rfl | ⟨q, d, hd, rfl, hb⟩)
      · exact ⟨p, c, by rw [update_self]; rfl, rfl, hbusy⟩
      · refine ⟨q, d, ?_, rfl, hb⟩
        have hne : q ≠ p := by
          rintro rfl
          rw [hpub] at hd
          exact absurd hd (by simp)
        rwa [update_of_ne hne]
    · rintro ⟨q, d, hd, rfl, hb⟩
      rcases update_view hd with ⟨-, hx⟩ | ⟨-, hd⟩
      · exact Or.inl (congrArg Chain.i0 (Option.some.inj hx)).symm
      · exact Or.inr ⟨q, d, hd, rfl, hb⟩
  · intro q d hd hor
    rcases update_view hd with ⟨-, hx⟩ | ⟨hne, hd⟩
    · obtain rfl := Option.some.inj hx
      rcases hor with hin | hb
      · exact absurd (List.mem_append_right _ hin) hout
      · exact absurd (hbusy.symm.trans hb) (by simp)
    · have hi0 : d.i0 ≠ c.i0 := fun he =>
        hne (ho.head_inj (chain_of_written (written_of_public hd)) hchain he)
      exact (update_of_ne hi0 _ _).trans (ht.done q d hd hor)
  · intro q d hd
    rcases update_eq hd with ⟨-, hx⟩ | ⟨-, hd⟩
    · exact absurd hx (by simp)
    · exact ht.closing q d hd

end calls

theorem Traffic.exit (ht : Traffic s s.stages) (hp : s.pcs p = .wait c) (hb : s.busy c.buf = false) :
    Traffic (s.setPc p (.free c)) (update s.stages p (.closing c)) := by
  have hstage : s.stages p = .sent c := stages_of hp
  refine ht.local ?_ ?_ ?_ rfl (fun _ _ => rfl) ?_ ?_ (fun _ _ _ => rfl) ?_
  · intro q d hd
    exact ht.built q d ((view_update (.closing c) Stage.written hstage rfl).mp hd)
  · intro q d hd
    exact ht.busy q d ((view_update (.closing c) Stage.private hstage rfl).mp hd)
  · intro q d hd
    rcases update_eq hd with ⟨-, hx⟩ | ⟨-, hd⟩
    · exact absurd hx (by simp)
    · exact ht.ringed q d hd
  · intro q d hd
    exact (view_update (.closing c) Stage.public hstage rfl).mp hd
  · intro q d hd _
    exact (view_update (.closing c) Stage.public hstage rfl).mpr hd
  · intro q d hd
    rcases update_eq hd with ⟨-, hx⟩ | ⟨-, hd⟩
    · obtain rfl := Stage.closing.inj hx
      exact hb
    · exact ht.closing q d hd

theorem Traffic.free (ht : Traffic s s.stages) (ho : Owned s.free s.stages) (hp : s.pcs p = .free c)
    {desc : ℕ → Desc} {free : ℕ → Bool} {pcs : ℕ → Pc} (hdesc : ∀ i ∉ c.idx, desc i = s.desc i) :
    Traffic { s with
      info := update s.info c.i0 { s.info c.i0 with b := none }, desc := desc, free := free, pcs := pcs }
      (update s.stages p .none) := by
  have hstage : s.stages p = .closing c := stages_of hp
  have hchain : (s.stages p).chain = some c := by rw [hstage]; rfl
  have hnone : ∀ {f : Stage → Option Chain}, f .none = none → ∀ {q d},
      f (update s.stages p .none q) = some d → q ≠ p ∧ f (s.stages q) = some d := by
    intro f hf q d hd
    rcases update_view hd with ⟨-, hx⟩ | hd
    · rw [hf] at hx
      exact absurd hx (by simp)
    · exact hd
  refine ht.local ?_ ?_ ?_ rfl ?_ ?_ ?_ (fun _ _ _ => rfl) ?_
  · intro q d hd
    obtain ⟨hne, hd⟩ := hnone (f := Stage.written) rfl hd
    have hdis := ho.disjoint hchain (chain_of_written hd) hne
    refine (ht.built q d hd).congr (fun i hi => hdesc i (hdis i hi)) ?_
    have hi0 : d.i0 ≠ c.i0 := fun he => hdis d.i0 d.i0_mem (he ▸ c.i0_mem)
    rw [update_of_ne hi0]
  · intro q d hd
    exact ht.busy q d (hnone (f := Stage.private) rfl hd).2
  · intro q d hd
    rcases update_eq hd with ⟨-, hx⟩ | ⟨-, hd⟩
    · exact absurd hx (by simp)
    · exact ht.ringed q d hd
  · intro h _
    rcases eq_or_ne h c.i0 with rfl | hne
    · rw [update_self]
    · rw [update_of_ne hne]
  · intro q d hd
    exact (hnone (f := Stage.public) rfl hd).2
  · intro q d hd hb
    have hne : q ≠ p := by
      rintro rfl
      rw [hstage] at hd
      obtain rfl := Option.some.inj hd
      exact absurd (hb.symm.trans (ht.closing q c hstage)) (by simp)
    rwa [update_of_ne hne]
  · intro q d hd
    rcases update_eq hd with ⟨-, hx⟩ | ⟨-, hd⟩
    · exact absurd hx (by simp)
    · exact ht.closing q d hd

/-! ### The handler -/

/-- The head that the handler is about to see is that of a call that waits for it. -/
theorem Traffic.head (ht : Traffic s st) (hne : s.seenIdx ≠ s.usedIdx) :
    ∃ p c, (st p).public = some c ∧ c.i0 = s.usedRing (s.seenIdx % NUM) ∧ s.busy c.buf = true ∧
      c.i0 ∈ s.ready := by
  have hmem : s.usedRing (s.seenIdx % NUM) ∈ s.ready := by
    refine List.mem_append_right _ ?_
    rw [State.posted, window_pop ht.seen ht.used NUM_dvd_IDX hne]
    exact List.mem_cons_self
  obtain ⟨p, c, hc, he, hb⟩ := (ht.flight _).mp (List.mem_append_right _ hmem)
  exact ⟨p, c, hc, he, hb, he ▸ hmem⟩

/-- The handler does not panic, and clears the flag of the buffer of that call. -/
theorem Traffic.handle_eq (ht : Traffic s st) (hc : (st p).public = some c)
    (he : c.i0 = s.usedRing (s.seenIdx % NUM)) (hr : c.i0 ∈ s.ready) (x : ℕ) : handle s x = { s with
      busy := update s.busy c.buf false
      pcs := fun q => (s.pcs q).wakeBuf c.buf
      seenIdx := (s.seenIdx + 1) % IDX
      intr := update s.intr x .loop } := by
  have hst := ht.status _ hr
  have hb := (ht.built p c (written_of_public hc)).info
  rw [he] at hst hb
  unfold handle
  simp [hst, hb]

theorem Traffic.handle (ht : Traffic s s.stages) (ho : Owned s.free s.stages) (hl : Locks s) {x : ℕ}
    (hx : s.intr x = .body) (hc : (s.stages p).public = some c)
    (he : c.i0 = s.usedRing (s.seenIdx % NUM)) (hr : c.i0 ∈ s.ready) {pcs : ℕ → Pc} : Traffic { s with
      busy := update s.busy c.buf false, pcs := pcs, seenIdx := (s.seenIdx + 1) % IDX
      intr := update s.intr x .loop } s.stages := by
  have hpop : s.posted = c.i0 :: window NUM IDX s.usedRing ((s.seenIdx + 1) % IDX) s.usedIdx := by
    rw [he]
    exact window_pop ht.seen ht.used NUM_dvd_IDX (ht.body x hx)
  have hchain := chain_of_written (written_of_public hc)
  have hother : ∀ q d, (s.stages q).chain = some d → q ≠ p → update s.busy c.buf false d.buf =
      s.busy d.buf :=
    fun q d hd hne => update_of_ne (fun heq => hne (hl.buf_inj hd hchain heq)) _ _
  have hready : s.ready = s.posting.toList ++ c.i0 :: window NUM IDX s.usedRing
      ((s.seenIdx + 1) % IDX) s.usedIdx := by
    rw [State.ready, hpop]
  set t := { s with
    busy := update s.busy c.buf false, pcs := pcs, seenIdx := (s.seenIdx + 1) % IDX
    intr := update s.intr x .loop } with htdef
  have hflight : s.flight.Perm (c.i0 :: t.flight) := by
    show (s.queue ++ s.taken ++ s.ready).Perm (c.i0 :: (s.queue ++ s.taken ++ t.ready))
    rw [hready, ← List.append_assoc]
    refine List.perm_middle.trans ?_
    simp only [List.append_assoc]
    rfl
  obtain ⟨hout, hnd⟩ := List.nodup_cons.mp (hflight.nodup_iff.mp ht.nodup)
  have hsub : ∀ h ∈ t.ready, h ∈ s.ready := by
    intro h hh
    rw [hready]
    exact (List.mem_append.mp hh).elim (List.mem_append_left _)
      (fun h => List.mem_append_right _ (List.mem_cons_of_mem _ h))
  refine ⟨ht.built, ?_, ht.ringed, hnd, ?_, ht.posting, fun h hh => ht.status h (hsub h hh), ?_, ?_,
    ht.avail, ht.last, ht.used, next_lt _, ?_⟩
  · intro q d hd
    have hne : q ≠ p := by
      rintro rfl
      rw [not_public_of_private hd] at hc
      exact absurd hc (by simp)
    exact (hother q d (chain_of_written (written_of_private hd)) hne).trans (ht.busy q d hd)
  · intro h
    constructor
    · intro hh
      obtain ⟨q, d, hd, rfl, hb⟩ := (ht.flight h).mp (hflight.mem_iff.mpr (List.mem_cons_of_mem _ hh))
      have hne : q ≠ p := by
        rintro rfl
        rw [hc] at hd
        exact hout (Option.some.inj hd ▸ hh)
      exact ⟨q, d, hd, rfl, (hother q d (chain_of_written (written_of_public hd)) hne).trans hb⟩
    · rintro ⟨q, d, hd, rfl, hb⟩
      have hne : q ≠ p := by
        rintro rfl
        rw [hc] at hd
        obtain rfl := Option.some.inj hd
        exact absurd ((update_self c.buf false s.busy).symm.trans hb) (by simp)
      have hb' := (hother q d (chain_of_written (written_of_public hd)) hne).symm.trans hb
      have hin := hflight.mem_iff.mp ((ht.flight d.i0).mpr ⟨q, d, hd, rfl, hb'⟩)
      exact (List.mem_cons.mp hin).resolve_left
        (fun he => hne (ho.head_inj (chain_of_written (written_of_public hd)) hchain he))
  · intro q d hd hor
    rcases eq_or_ne q p with rfl | hne
    · rw [hc] at hd
      obtain rfl := Option.some.inj hd
      exact ht.done q c hc (Or.inl hr)
    · refine ht.done q d hd (hor.imp (hsub d.i0) (fun hb => ?_))
      exact (hother q d (chain_of_written (written_of_public hd)) hne).symm.trans hb
  · intro q d hd
    have hb := ht.closing q d hd
    rcases eq_or_ne d.buf c.buf with he' | hne
    · exact he' ▸ update_self _ _ _
    · exact (update_of_ne hne _ _).trans hb
  · intro y hy
    rcases eq_or_ne y x with rfl | hne
    · exact absurd ((update_self y IntrPc.loop s.intr).symm.trans hy) (by simp)
    · have hy' : s.intr y = .body := (update_of_ne hne _ _).symm.trans hy
      have hlock := hl.intr y (by simp [hy'])
      rw [hl.intr x (by simp [hx])] at hlock
      exact absurd (Actor.intr.inj (Option.some.inj hlock)).symm hne

/-! ### The device -/

/-- The device finds the status byte of a head that is under way in the record of the head. -/
theorem Traffic.statusOf_eq (ht : Traffic s st) (hh : h ∈ s.flight) : s.statusOf h = some h := by
  obtain ⟨p, c, hc, rfl, -⟩ := (ht.flight h).mp hh
  have hb := ht.built p c (written_of_public hc)
  unfold State.statusOf
  simp only [hb.head.1, hb.head.2, hb.data.1, hb.data.2, hb.tail.1, hb.tail.2]
  rfl

theorem Traffic.length_le {free : ℕ → Bool} (ht : Traffic s st) (ho : Owned free st) :
    s.flight.length ≤ NUM := by
  have hle := (ht.nodup.subperm (ht.small ho)).length_le
  rwa [List.length_range] at hle

theorem Traffic.take (ht : Traffic s st) (hne : s.lastAvail ≠ s.availIdx) :
    Traffic { s with
      lastAvail := (s.lastAvail + 1) % IDX
      taken := s.availRing (s.lastAvail % NUM) :: s.taken } st := by
  set t := { s with
    lastAvail := (s.lastAvail + 1) % IDX
    taken := s.availRing (s.lastAvail % NUM) :: s.taken } with htdef
  have hpop : s.queue = s.availRing (s.lastAvail % NUM) :: t.queue :=
    window_pop ht.last ht.avail NUM_dvd_IDX hne
  have hflight : t.flight.Perm s.flight := by
    show (t.queue ++ s.availRing (s.lastAvail % NUM) :: s.taken ++ s.ready).Perm
      (s.queue ++ s.taken ++ s.ready)
    rw [hpop, List.cons_append]
    exact List.perm_middle.append_right s.ready
  refine ⟨ht.built, ht.busy, ht.ringed, hflight.nodup_iff.mpr ht.nodup, ?_, ht.posting, ht.status,
    ht.done, ht.closing, ht.avail, next_lt _, ht.used, ht.seen, ht.body⟩
  intro h
  rw [hflight.mem_iff]
  exact ht.flight h

theorem Traffic.complete {free : ℕ → Bool} (ht : Traffic s st) (ho : Owned free st)
    (hh : h ∈ s.taken) (hpost : s.posting = none) : Traffic (complete s h h) st := by
  have hroom : count IDX s.seenIdx s.usedIdx < NUM := by
    have hlen := ht.length_le ho
    have hpos := List.length_pos_of_mem hh
    simp only [State.flight, State.ready, State.posted, List.length_append, length_window] at hlen
    omega
  have hposted : (Virtio.complete s h h).posted = s.posted :=
    window_write ht.seen ht.used NUM_dvd_IDX hroom
  have hready' : s.ready = s.posted := by
    rw [State.ready, hpost]
    exact List.nil_append s.posted
  have hready : (Virtio.complete s h h).ready = h :: s.ready := by
    rw [State.ready, hposted, hready']
    exact List.singleton_append
  have hflight : (Virtio.complete s h h).flight.Perm s.flight := by
    show (s.queue ++ s.taken.erase h ++ (Virtio.complete s h h).ready).Perm (s.queue ++ s.taken ++
      s.ready)
    rw [hready, List.append_assoc, List.append_assoc]
    refine List.Perm.append_left s.queue (List.perm_middle.trans ?_)
    exact (List.perm_cons_erase hh).symm.append_right s.ready
  have hinfo : ∀ k, ((Virtio.complete s h h).info k).b = (s.info k).b := by
    intro k
    rcases eq_or_ne k h with rfl | hne
    · simp [Virtio.complete]
    · exact congrArg Info.b (update_of_ne hne _ _)
  refine ⟨?_, ht.busy, ht.ringed, hflight.nodup_iff.mpr ht.nodup, ?_, ?_, ?_, ?_, ht.closing,
    ht.avail, ht.last, ht.used, ht.seen, ht.body⟩
  · intro q d hd
    exact (ht.built q d hd).congr (fun _ _ => rfl) (hinfo d.i0)
  · intro k
    rw [hflight.mem_iff]
    exact ht.flight k
  · intro k hk
    obtain rfl := Option.some.inj hk
    exact update_self _ _ _
  · intro k hk
    rw [hready] at hk
    rcases eq_or_ne k h with rfl | hne
    · simp [Virtio.complete]
    · refine (congrArg Info.status (update_of_ne hne _ _)).trans ?_
      exact ht.status k ((List.mem_cons.mp hk).resolve_left hne)
  · intro q d hd hor
    rw [hready] at hor
    rcases eq_or_ne d.i0 h with he | hne
    · exact he ▸ update_self _ _ _
    · refine (update_of_ne hne _ _).trans (ht.done q d hd ?_)
      exact hor.imp_left (fun hin => (List.mem_cons.mp hin).resolve_left hne)

theorem Traffic.post {free : ℕ → Bool} (ht : Traffic s st) (ho : Owned free st)
    (hpost : s.posting = some h) :
    Traffic { s with usedIdx := (s.usedIdx + 1) % IDX, posting := none } st := by
  set t := { s with usedIdx := (s.usedIdx + 1) % IDX, posting := none } with htdef
  have hroom : count IDX s.seenIdx s.usedIdx + 1 < IDX := by
    have hlen := ht.length_le ho
    simp only [State.flight, State.ready, State.posted, List.length_append, length_window] at hlen
    exact (show count IDX s.seenIdx s.usedIdx + 1 ≤ NUM + 1 by omega).trans_lt (by decide)
  have hposted : t.posted = s.posted ++ [h] := by
    have hadv := window_advance ht.seen ht.used NUM_dvd_IDX hroom (r := s.usedRing)
    rwa [ht.posting h hpost] at hadv
  have hready : t.ready.Perm s.ready := by
    rw [State.ready, State.ready, hposted, hpost]
    show ([] ++ (s.posted ++ [h])).Perm ([h] ++ s.posted)
    rw [List.nil_append]
    exact List.perm_append_comm
  have hflight : t.flight.Perm s.flight := hready.append_left _
  refine ⟨ht.built, ht.busy, ht.ringed, hflight.nodup_iff.mpr ht.nodup, ?_, ?_, ?_, ?_, ht.closing,
    ht.avail, ht.last, next_lt _, ht.seen, ?_⟩
  · intro k
    rw [hflight.mem_iff]
    exact ht.flight k
  · intro k hk
    exact absurd hk (by simp [htdef])
  · intro k hk
    exact ht.status k (hready.mem_iff.mp hk)
  · intro q d hd hor
    exact ht.done q d hd (hor.imp_left hready.mem_iff.mp)
  · intro x _ he
    have hcount := count_advance ht.seen ht.used hroom
    rw [(count_eq_zero ht.seen (next_lt _)).mpr he] at hcount
    omega

end Xv6Cow.Virtio

import LogTail.Proofs.Resumption

namespace LogTail

open Record Tracker Session Json

structure Above (met : List (Nat × Fingerprint)) (size limit : Nat) (low : Nat → Nat) (t : FileTree)
    (n : Nat) (r : Reader) : Prop where
  seen : (n, r.fingerprint) ∈ met
  filled : r.fingerprint.bytes ≠ []
  start : r.fingerprint.bytes <+: (t.content n).take size
  low : low n ≤ r.offset
  offset : r.offset ≤ (t.content n).length
  handle : ∀ h, r.handle = some h → h.node = n
  limit : r.maxLogSize = limit
  ordered : Ordered r.metadata.attributes

namespace Above

variable {met : List (Nat × Fingerprint)} {size limit : Nat} {low : Nat → Nat} {t t' : FileTree}
  {w : World} {n : Nat} {r : Reader}

theorem grows (h : Above met size limit low t n r) (hgrows : t.Grows t') :
    Above met size limit low t' n r where
  seen := h.seen
  filled := h.filled
  start := by
    obtain ⟨hstart, hsize⟩ := List.prefix_take_iff.mp h.start
    exact List.prefix_take_iff.mpr ⟨hstart.trans (hgrows n), hsize⟩
  low := h.low
  offset := Nat.le_trans h.offset (hgrows n).length_le
  handle := h.handle
  limit := h.limit
  ordered := h.ordered

theorem close (h : Above met size limit low t n r) : Above met size limit low t n r.close :=
  { h with handle := by simp [Reader.close] }

theorem tidy (h : Above met size limit low t n r) (hcount : Countable t) : r.metadata.Tidy :=
  ⟨h.ordered, Nat.lt_of_le_of_lt h.offset (hcount n)⟩

theorem resume {f : Policy} (hrivals : NoRivals met)
    (ha : Above met f.fingerprintSize f.limit low t n r) {h : Handle} {fp : Fingerprint}
    (hseen : (h.node, fp) ∈ met) (hsighted : Sighted f.fingerprintSize t h fp)
    (hmatch : fp.startsWith r.fingerprint = true) (path : Path) :
    n = h.node ∧ Above met f.fingerprintSize f.limit low t n (f.resume r.metadata h fp path) := by
  obtain rfl : n = h.node := hrivals.same ha.seen hseen hmatch
  refine ⟨rfl, ?_⟩
  constructor
  case seen => rwa [Policy.fingerprint_resume]
  case filled =>
    rw [Policy.fingerprint_resume]
    exact hsighted.filled
  case start => rw [Policy.fingerprint_resume, hsighted.bytes]
  case low =>
    rw [Policy.offset_resume]
    exact ha.low
  case offset =>
    rw [Policy.offset_resume]
    exact ha.offset
  case handle => simp
  case limit => rfl
  case ordered => exact f.ordered_build _ _ ha.ordered

theorem fresh {f : Policy} {h : Handle} {fp : Fingerprint} (hseen : (h.node, fp) ∈ met)
    (hsighted : Sighted f.fingerprintSize t h fp) (hlow : low h.node ≤ (t.content h.node).length)
    (hbegin : f.fromBeginning = true → low h.node = 0) (path : Path) :
    Above met f.fingerprintSize f.limit low t h.node
      (f.fresh (t.content h.node).length h fp path) := by
  constructor
  case seen => rwa [Policy.fingerprint_fresh]
  case filled =>
    rw [Policy.fingerprint_fresh]
    exact hsighted.filled
  case start => rw [Policy.fingerprint_fresh, hsighted.bytes]
  case low =>
    rw [Policy.offset_fresh]
    split
    · next hb => rw [hbegin hb]
    · exact hlow
  case offset =>
    rw [Policy.offset_fresh]
    split
    · exact Nat.zero_le _
    · exact Nat.le_refl _
  case handle => simp
  case limit => rfl
  case ordered => exact f.ordered_build _ _ List.Pairwise.nil

theorem drainOne (hlimit : 0 < limit) (hrivals : NoRivals met)
    (ha : Above met size limit low w.tree n r) {r' : Reader} (hr' : (drainOne r w).1 = some r') :
    r'.fingerprint = r.fingerprint ∧ Above met size limit low w.tree n r' ∧
      ∀ m, ∀ a ∈ (Tracker.drainOne r w).2.delivered met m,
        a ∈ w.delivered met m ∨ m = n ∧ low n ≤ a.span.offset := by
  cases hh : r.handle with
  | none =>
      rw [drainOne_closed hh] at hr' ⊢
      obtain rfl : r = r' := by simpa using hr'
      exact ⟨rfl, ha, fun _ _ h => .inl h⟩
  | some h =>
      obtain rfl := ha.handle h hh
      obtain ⟨ended, r₁, bs, taken, left, hd, htook, hres⟩ := drainOne_open hh w
      rw [Reader.rewound_of_le ha.offset] at hd
      have hended : ended ≠ .crashed := by
        rintro rfl
        rw [hres] at hr'
        cases hr'
      obtain rfl : r₁ = r' := by simpa [hres, hended] using hr'
      -- what was taken lies between the offset and the end of the file
      have hextent : r.offset + extent taken ≤ (w.tree.content h.node).length := by
        have hle := extent_pieces_le hlimit ((w.tree.content h.node).drop r.offset)
        rw [← ha.limit, hd.split, extent_append, List.length_drop] at hle
        have := ha.offset
        omega
      have hfp : r₁.fingerprint = r.fingerprint := by rw [hd.moved, Reader.fingerprint_moveTo]
      have hoffset : r₁.offset = r.offset + extent taken := by rw [hd.moved, Reader.offset_moveTo]
      refine ⟨hfp, ?_, fun m a hm => ?_⟩
      · constructor
        case seen => exact hfp ▸ ha.seen
        case filled => exact hfp ▸ ha.filled
        case start => exact hfp ▸ ha.start
        case low =>
          rw [hoffset]
          exact Nat.le_trans ha.low (Nat.le_add_right _ _)
        case offset => rwa [hoffset]
        case handle =>
          rw [hd.moved]
          exact ha.handle
        case limit =>
          rw [hd.moved]
          exact ha.limit
        case ordered =>
          rw [hd.moved]
          exact ha.ordered
      · rw [delivered_stamped htook.outlet hd.stamped] at hm
        rcases List.mem_append.mp hm with hm | hm
        · exact .inl hm
        · split at hm
          · next hmem =>
              rw [hd.records hended] at hm
              have hfrom := Reader.offset_of_mem_recordsFrom hm
              exact .inr ⟨hrivals.same hmem ha.seen (Fingerprint.startsWith_refl ha.filled),
                Nat.le_trans ha.low hfrom⟩
          · cases hm

end Above

/-- The readers kept are those of different files, none stands below the mark of its file, and nothing
from below it was delivered. Files that were come to have a reader. -/
structure Skips (met : List (Nat × Fingerprint)) (size limit : Nat) (low : Nat → Nat) (come : Nat → Prop)
    (w : World) (rs : List Reader) : Prop where
  mild : Mild w.outlet.verdict
  tracked : ∀ r ∈ rs, ∃ n, Above met size limit low w.tree n r
  apart : rs.Pairwise fun a b => ∀ n, (n, a.fingerprint) ∈ met → (n, b.fingerprint) ∉ met
  come : ∀ n, come n → ∃ r ∈ rs, (n, r.fingerprint) ∈ met
  marks : ∀ n, low n ≤ (w.tree.content n).length
  delivered : ∀ n, ∀ a ∈ w.delivered met n, low n ≤ a.span.offset

namespace Skips

variable {met : List (Nat × Fingerprint)} {size limit : Nat} {low : Nat → Nat} {come : Nat → Prop}
  {w w' : World} {r : Reader} {rs rs' : List Reader}

theorem perm (h : Skips met size limit low come w rs) (hp : rs.Perm rs') :
    Skips met size limit low come w rs' where
  mild := h.mild
  tracked r hr := h.tracked r (hp.mem_iff.mpr hr)
  apart := h.apart.perm hp fun hab n hb ha => hab n ha hb
  come n hn := by
    obtain ⟨r, hr, hmem⟩ := h.come n hn
    exact ⟨r, hp.mem_iff.mp hr, hmem⟩
  marks := h.marks
  delivered := h.delivered

theorem onward (h : Skips met size limit low come w rs) (hgrows : w.tree.Grows w'.tree)
    (hmild : Mild w'.outlet.verdict) (haccepted : w'.outlet.accepted = w.outlet.accepted) :
    Skips met size limit low come w' rs where
  mild := hmild
  tracked r hr := by
    obtain ⟨n, ha⟩ := h.tracked r hr
    exact ⟨n, ha.grows hgrows⟩
  apart := h.apart
  come := h.come
  marks n := Nat.le_trans (h.marks n) (hgrows n).length_le
  delivered n a ha := by
    rw [World.delivered, Outlet.batches, haccepted] at ha
    exact h.delivered n a ha

theorem replace {r' : Reader} (h : Skips met size limit low come w (r :: rs)) {n : Nat}
    (ha : Above met size limit low w.tree n r')
    (hsame : ∀ m, (m, r'.fingerprint) ∈ met ↔ (m, r.fingerprint) ∈ met) :
    Skips met size limit low come w (r' :: rs) := by
  obtain ⟨hr, hrs⟩ := List.pairwise_cons.mp h.apart
  constructor
  case mild => exact h.mild
  case tracked =>
    exact List.forall_mem_cons.mpr ⟨⟨n, ha⟩, fun s hs => h.tracked s (List.mem_cons_of_mem _ hs)⟩
  case apart => exact .cons (fun b hb m hm => hr b hb m ((hsame m).mp hm)) hrs
  case come =>
    intro m hm
    obtain ⟨s, hs, hmem⟩ := h.come m hm
    rcases List.mem_cons.mp hs with rfl | hs
    · exact ⟨r', List.mem_cons_self, (hsame m).mpr hmem⟩
    · exact ⟨s, List.mem_cons_of_mem _ hs, hmem⟩
  case marks => exact h.marks
  case delivered => exact h.delivered

theorem free (h : Skips met size limit low come w rs) (hrivals : NoRivals met) {handle : Handle}
    {fp : Fingerprint} (hsighted : Sighted size w.tree handle fp)
    (hnone : ∀ r ∈ rs, fp.startsWith r.fingerprint = false) :
    ∀ r ∈ rs, (handle.node, r.fingerprint) ∉ met := by
  intro r hr hmem
  obtain ⟨n, ha⟩ := h.tracked r hr
  obtain rfl : handle.node = n := hrivals.same hmem ha.seen (Fingerprint.startsWith_refl ha.filled)
  have hstart : fp.startsWith r.fingerprint = true :=
    Fingerprint.startsWith_iff.mpr ⟨ha.filled, by rw [hsighted.bytes]; exact ha.start⟩
  rw [hnone r hr] at hstart
  cases hstart

theorem preserved {f : Policy} (hrivals : NoRivals met)
    (hcome : f.fromBeginning = true → ∀ n, 0 < low n → come n) :
    Preserved f met (Skips met f.fingerprintSize f.limit low come) where
  perm := perm
  stays h hs := hs.onward (by rw [h.tree]; exact .refl _) (by rw [h.outlet.verdict]; exact hs.mild)
    (by simpa using h.outlet.accepted)
  resumed {w old rs h fp} path hs hseen hsighted hmatch := by
    obtain ⟨n, ha⟩ := hs.tracked old (by simp)
    obtain ⟨rfl, ha'⟩ := ha.resume hrivals hseen hsighted hmatch path
    refine hs.replace ha' fun m => ?_
    rw [Policy.fingerprint_resume]
    constructor
    · intro hm
      rw [hrivals.same hm hseen (Fingerprint.startsWith_refl hsighted.filled)]
      exact ha.seen
    · intro hm
      rw [hrivals.same hm hseen hmatch]
      exact hseen
  added {w rs h fp} path hs hseen hsighted hnone := by
    have hfree := hs.free hrivals hsighted hnone
    have hown {m : Nat} (hm : (m, fp) ∈ met) : m = h.node :=
      hrivals.same hm hseen (Fingerprint.startsWith_refl hsighted.filled)
    have hnew : Above met f.fingerprintSize f.limit low w.tree h.node
        (f.fresh (w.tree.content h.node).length h fp path) := by
      refine .fresh hseen hsighted (hs.marks _) (fun hbegin => ?_) path
      -- a file with a mark has had its reader since the first poll
      by_contra hlow
      obtain ⟨r, hr, hmem⟩ := hs.come h.node (hcome hbegin _ (Nat.pos_of_ne_zero hlow))
      exact hfree r hr hmem
    constructor
    case mild => exact hs.mild
    case tracked => exact List.forall_mem_cons.mpr ⟨⟨h.node, hnew⟩, hs.tracked⟩
    case apart =>
      refine .cons (fun b hb m hm => ?_) hs.apart
      rw [Policy.fingerprint_fresh] at hm
      rw [hown hm]
      exact hfree b hb
    case come =>
      intro n hn
      obtain ⟨r, hr, hmem⟩ := hs.come n hn
      exact ⟨r, List.mem_cons_of_mem _ hr, hmem⟩
    case marks => exact hs.marks
    case delivered => exact hs.delivered
  drained {w r rs} hs := by
    obtain ⟨n, ha⟩ := hs.tracked r (by simp)
    obtain ⟨r', hr'⟩ := drainOne_mild hs.mild r
    obtain ⟨bs, htook⟩ := drainOne_took r w
    obtain ⟨hfp, ha', hdelivered⟩ := ha.drainOne f.limit_pos hrivals hr'
    have hreplaced := hs.replace ha' fun m => by rw [hfp]
    rw [hr']
    constructor
    case mild =>
      rw [htook.outlet.verdict]
      exact hs.mild
    case tracked =>
      rw [htook.tree]
      exact hreplaced.tracked
    case apart => exact hreplaced.apart
    case come => exact hreplaced.come
    case marks =>
      rw [htook.tree]
      exact hs.marks
    case delivered =>
      intro m a hm
      rcases hdelivered m a hm with hm | ⟨rfl, hlow⟩
      · exact hs.delivered m a hm
      · exact hlow
  closed {w r rs} hs := by
    obtain ⟨n, ha⟩ := hs.tracked r (by simp)
    exact hs.replace ha.close fun m => Iff.rfl

theorem length_le (h : Skips met size limit low come w rs) : rs.length ≤ (filesOf met).length := by
  refine readers_length_le (fun r hr => ?_) h.apart
  obtain ⟨n, ha⟩ := h.tracked r hr
  exact ⟨n, ha.seen⟩

end Skips

/-- A tracker that delivers nothing from below the marks, and remembers all that the checkpoint names. -/
structure Spares (met : List (Nat × Fingerprint)) (size limit : Nat) (low : Nat → Nat) (come : Nat → Prop)
    (k : Tracker) (w : World) (files : List Metadata) : Prop where
  takes : k.policy.fingerprintSize = size
  cuts : k.policy.limit = limit
  room : (filesOf met).length ≤ k.settings.capacity
  skips : Skips met size limit low come w k.kept
  tidy : ∀ e ∈ k.gathered, e.Tidy
  covered : Covers ((k.gathered ++ files).map Metadata.fingerprint) w k.kept

structure Spared (met : List (Nat × Fingerprint)) (size limit : Nat) (low : Nat → Nat) (come : Nat → Prop)
    (k : Option Tracker) (w : World) (files : List Metadata) : Prop where
  countable : Countable w.tree
  mild : Mild w.outlet.verdict
  delivered : ∀ n, ∀ a ∈ w.delivered met n, low n ≤ a.span.offset
  spares : ∀ k', k = some k' → Spares met size limit low come k' w files

section Maintained

variable {met : List (Nat × Fingerprint)} {size limit : Nat} {low : Nat → Nat} {come : Nat → Prop}

theorem Spares.spared {k : Tracker} {w : World} {files : List Metadata}
    (h : Spares met size limit low come k w files) (hcount : Countable w.tree) :
    Spared met size limit low come (some k) w files :=
  ⟨hcount, h.skips.mild, h.skips.delivered, fun _ hk => Option.some.inj hk ▸ h⟩

theorem Spares.resume {k : Tracker} {w : World} {files : List Metadata}
    (h : Spares met size limit low come k w files) :
    k.resume files = k ∨ k.resume files = k.readFromBeginning := by
  by_cases hempty : files.isEmpty = true
  · left
    rw [Tracker.resume, if_pos hempty]
  · right
    have hagain : k.resume files = k.readFromBeginning.resume files := by
      rw [Tracker.resume, Tracker.resume, if_neg hempty, if_neg hempty]
      rfl
    rw [hagain]
    exact resume_known rfl (Nat.le_trans h.skips.length_le h.room)
      fun e he => h.covered.covered _ (List.mem_map_of_mem (by simp [he]))

theorem Skips.trim {k : Tracker} {w : World} (h : Skips met size limit low come w k.kept)
    (hroom : (filesOf met).length ≤ k.settings.capacity) : k.trim = k :=
  trim_of_le (Nat.le_trans h.length_le hroom)

variable (hrivals : NoRivals met)
include hrivals

theorem Skips.collect {k : Tracker} {w : World} {paths : List Path}
    (hcome : k.policy.fromBeginning = true → ∀ n, 0 < low n → come n)
    (hsights : ∀ s ∈ k.sights w.tree paths, s ∈ met)
    (h : Skips met k.policy.fingerprintSize k.policy.limit low come w k.kept) :
    Skips met k.policy.fingerprintSize k.policy.limit low come (k.collect paths w).2
      (k.collect paths w).1.kept :=
  (Skips.preserved hrivals hcome).collect rfl hsights h

variable (hcome : ∀ n, 0 < low n → come n)
include hcome

theorem Spares.collect {k : Tracker} {w : World} {files : List Metadata} {paths : List Path}
    (h : Spares met size limit low come k w files) (hcount : Countable w.tree)
    (hsights : ∀ s ∈ k.sights w.tree paths, s ∈ met) :
    Spares met size limit low come (k.collect paths w).1.trim (k.collect paths w).2 files := by
  obtain ⟨rfl, rfl, hroom, hskips, htidy, hcovers⟩ := h
  have hskips := hskips.collect hrivals (fun _ => hcome) hsights
  have hcovers := hcovers.collect hsights fun r hr => by
    obtain ⟨n, ha⟩ := hskips.tracked r hr
    exact ha.filled
  obtain ⟨halike, _, hgathered⟩ := k.collect_alike paths w
  obtain ⟨bs, htook⟩ := k.collect_took paths w
  rw [← htook.tree] at hcount
  have hroom : (filesOf met).length ≤ (k.collect paths w).1.settings.capacity := by
    rw [halike.settings]
    exact hroom
  rw [hskips.trim hroom]
  constructor
  case takes => rw [halike.policy]
  case cuts => rw [halike.policy]
  case room => exact hroom
  case skips => exact hskips
  case tidy =>
    intro e he
    rw [hgathered] at he
    rcases List.mem_append.mp he with he | he
    · exact htidy e he
    · obtain ⟨r, hr, rfl⟩ := List.mem_map.mp he
      obtain ⟨n, ha⟩ := hskips.tracked r (List.mem_append_right _ hr)
      exact ha.tidy hcount
  case covered => exact hcovers

theorem spared_maintained : Maintained Mild met (Spared met size limit low come) where
  onward {k w w' files} h hgrows hcount hmild haccepted := by
    have hsame (n : Nat) : w'.delivered met n = w.delivered met n := by
      simp [World.delivered, Outlet.batches, haccepted]
    refine ⟨hcount, hmild, fun n => hsame n ▸ h.delivered n, fun k' hk => ?_⟩
    have hk' := h.spares k' hk
    exact { hk' with
      skips := hk'.skips.onward hgrows hmild haccepted
      covered := ⟨hmild, hk'.covered.covered⟩ }
  kind h := h.mild
  countable h := h.countable
  tidy h := (h.spares _ rfl).tidy
  begun h := by
    have hk := h.spares _ rfl
    refine Spares.spared { hk with tidy := by simp, covered := ⟨h.mild, fun fp hfp => ?_⟩ } h.countable
    exact hk.covered.covered fp (by simp at hfp ⊢; exact .inr hfp)
  collected {k w files} paths h hsights := by
    obtain ⟨bs, htook⟩ := k.collect_took paths w
    exact ((h.spares _ rfl).collect hrivals hcome h.countable hsights).spared
      (by rw [htook.tree]; exact h.countable)
  saved h := by
    have hk := h.spares _ rfl
    refine Spares.spared { hk with covered := ⟨h.mild, fun fp hfp => ?_⟩ } h.countable
    exact hk.covered.covered fp (by simp at hfp ⊢; exact .inl hfp)
  beginning h := by
    have hk := h.spares _ rfl
    exact Spares.spared ⟨hk.takes, hk.cuts, hk.room, hk.skips, hk.tidy, hk.covered⟩ h.countable
  closed {k w files} h := by
    obtain ⟨rfl, rfl, hroom, hskips, htidy, hcovers⟩ := h.spares _ rfl
    have hskips : Skips met _ _ low come w (k.kept.map Reader.close ++ []) :=
      (Skips.preserved hrivals fun _ => hcome).close (by rw [List.append_nil]; exact hskips)
    have hcovers : Covers ((k.gathered ++ files).map Metadata.fingerprint) w
        (k.kept.map Reader.close ++ []) :=
      (Covers.preserved met k.policy _).close (by rw [List.append_nil]; exact hcovers)
    rw [List.append_nil, ← closeReaders_kept] at hskips hcovers
    exact Spares.spared ⟨rfl, rfl, hroom, hskips, htidy, hcovers⟩ h.countable
  resumed {k w files} h := by
    have hk := h.spares _ rfl
    rcases hk.resume with hsame | hbegun
    · rwa [hsame]
    · rw [hbegun]
      exact Spares.spared ⟨hk.takes, hk.cuts, hk.room, hk.skips, hk.tidy, hk.covered⟩ h.countable
  stored store h := by
    have hk := h.spares _ rfl
    exact Spares.spared ⟨hk.takes, hk.cuts, hk.room, hk.skips, hk.tidy, hk.covered⟩ h.countable
  lost h := ⟨h.countable, h.mild, h.delivered, by simp⟩

end Maintained

namespace Session

structure Blank (c : Config) (s : Session) : Prop where
  tracker : ∃ k, s.tracker? = some k ∧ k.kept = [] ∧ k.gathered = [] ∧ k.policy = c.policy ∧
    k.settings = c.settings
  store {k : Tracker} : s.consumer.phase = .running k → k.store = some s.store
  held : s.store.held s.world.memory = .ok none
  accepted : s.world.outlet.accepted = []
  mild : Mild s.world.outlet.verdict
  countable : Countable s.world.tree

variable {c : Config} {s : Session}

theorem Fresh.blank (h : s.Fresh c) : s.Blank c := by
  obtain ⟨_, selector, horigin⟩ := Consumer.ofConfig_ok h.built
  have hphase : s.consumer.phase = .stopped (.ofParts selector c.policy c.settings) := by
    rw [h.consumer, horigin]
    rfl
  constructor
  case tracker =>
    exact ⟨.ofParts selector c.policy c.settings, by simp [tracker?, hphase], rfl, rfl, rfl, rfl⟩
  case store =>
    intro k hk
    rw [hphase] at hk
    cases hk
  case held => exact h.held
  case accepted => simp [h.outlet, Outlet.willing]
  case mild => simp [h.outlet, Outlet.willing, Mild]
  case countable => exact h.countable

theorem Blank.start (h : s.Blank c) : (s.step .start).Blank c := by
  obtain ⟨k, hk, hkept, hgathered, hpolicy, hsettings⟩ := h.tracker
  rcases start_cases s.consumer s.store s.world with
    ⟨e, w', hstart, htree, hmemory, hout⟩ |
    ⟨k', files, format, w', hphase, hload, hstart, htree, hmemory, hout⟩
  · simp only [step, hstart]
    exact ⟨⟨k, hk, hkept, hgathered, hpolicy, hsettings⟩, h.store, by rw [hmemory]; exact h.held,
      by rw [hout]; exact h.accepted, by rw [hout]; exact h.mild, by rw [htree]; exact h.countable⟩
  · obtain rfl := load_holds (.inl ⟨rfl, h.held⟩) hload
    obtain rfl : k' = k := by simpa [tracker?, hphase] using hk
    simp only [step, hstart]
    refine ⟨⟨_, rfl, hkept, hgathered, hpolicy, hsettings⟩, fun hk => ?_, by rw [hmemory]; exact h.held,
      by rw [hout]; exact h.accepted, by rw [hout]; exact h.mild, by rw [htree]; exact h.countable⟩
    cases hk
    rfl

theorem Blank.stop (h : s.Blank c) : (s.step .stop).Blank c := by
  obtain ⟨k, hk, hkept, hgathered, hpolicy, hsettings⟩ := h.tracker
  cases hphase : s.consumer.phase with
  | stopped k' | lost =>
      have hstop : s.step .stop = s := by simp [step, Consumer.stop, hphase]
      rwa [hstop]
  | crashed => simp [tracker?, hphase] at hk
  | running k' =>
      obtain rfl : k' = k := by simpa [tracker?, hphase] using hk
      simp only [step, Consumer.stop, hphase]
      refine ⟨⟨_, rfl, ?_, hgathered, hpolicy, hsettings⟩, by simp, h.held, h.accepted, h.mild,
        h.countable⟩
      rw [closeReaders_kept, hkept, List.map_nil]

theorem Blank.step {a : Act} (h : s.Blank c) (hlawful : s.Lawful Mild a) (hlives : a.goesOn = true)
    (hpoll : a ≠ .poll) : (s.step a).Blank c := by
  cases a with
  | change tree => exact ⟨h.tracker, h.store, h.held, h.accepted, h.mild, hlawful.2⟩
  | emitter verdict looks => exact ⟨h.tracker, h.store, h.held, h.accepted, hlawful, h.countable⟩
  | memory failGet failSet crashSet =>
      refine ⟨h.tracker, h.store, ?_, h.accepted, h.mild, h.countable⟩
      exact (Store.held_values rfl _).trans h.held
  | start => exact h.start
  | stop => exact h.stop
  | poll => exact absurd rfl hpoll
  | rebuild | die => cases hlives

theorem Blank.run {acts : List Act} (h : s.Blank c) (hlawful : s.Allows (Lawful Mild) acts)
    (hlives : ∀ a ∈ acts, a.goesOn = true) (hpolls : ∀ a ∈ acts, a ≠ .poll) : (s.run acts).Blank c := by
  induction acts generalizing s with
  | nil => exact h
  | cons a acts ih =>
      exact ih (h.step hlawful.1 (hlives a (by simp)) (hpolls a (by simp))) hlawful.2
        (fun b hb => hlives b (by simp [hb])) fun b hb => hpolls b (by simp [hb])

def comesTo (s : Session) : List Nat := (s.stages.flatMap Stage.sights).map Prod.fst

/-- The mark of a file that the next poll comes to is the length it has. -/
def mark (s : Session) (n : Nat) : Nat := if n ∈ s.comesTo then (s.world.tree.content n).length else 0

theorem mark_le (s : Session) (n : Nat) : s.mark n ≤ (s.world.tree.content n).length := by
  unfold mark
  split
  · exact Nat.le_refl _
  · exact Nat.zero_le _

theorem comesTo_of_mark {s : Session} {n : Nat} (h : 0 < s.mark n) : n ∈ s.comesTo := by
  unfold mark at h
  split at h
  · assumption
  · cases h

theorem mem_comesTo {s : Session} {stage : Stage} (hstage : stage ∈ s.stages) {n : Nat}
    {fp : Fingerprint} (hx : (n, fp) ∈ stage.sights) : n ∈ s.comesTo :=
  List.mem_map.mpr ⟨(n, fp), List.mem_flatMap.mpr ⟨stage, hstage, hx⟩, rfl⟩

theorem exists_of_comesTo {s : Session} {n : Nat} (h : n ∈ s.comesTo) :
    ∃ stage ∈ s.stages, ∃ fp, (n, fp) ∈ stage.sights := by
  obtain ⟨⟨m, fp⟩, hx, rfl⟩ := List.mem_map.mp h
  obtain ⟨stage, hstage, hsight⟩ := List.mem_flatMap.mp hx
  exact ⟨stage, hstage, fp, hsight⟩

/-- A tracker that begins with new files at their ends, and keeps all readers above the marks. -/
structure AtEnds (met : List (Nat × Fingerprint)) (f : Policy) (low : Nat → Nat) (k : Tracker)
    (w : World) : Prop where
  policy : k.policy = f
  room : (filesOf met).length ≤ k.settings.capacity
  skips : Skips met f.fingerprintSize f.limit low (fun _ => False) w k.kept

theorem AtEnds.read {met : List (Nat × Fingerprint)} {f : Policy} {low : Nat → Nat} {stage : Stage}
    (hrivals : NoRivals met) (hend : f.fromBeginning = false) (hsights : ∀ x ∈ stage.sights, x ∈ met)
    (hgrows : stage.world.tree.Grows stage.read.2.tree)
    (h : AtEnds met f low stage.tracker stage.world) :
    ∃ rs, Skips met f.fingerprintSize f.limit low (fun _ => False) stage.read.2 rs ∧
      ∀ k', stage.read.1 = some k' → k'.kept = rs ∧ AtEnds met f low k' stage.read.2 := by
  obtain ⟨rfl, hroom, hskips⟩ := h
  have hcollected := hskips.collect hrivals (fun hbegin => by rw [hend] at hbegin; cases hbegin) hsights
  obtain ⟨halike, _, _⟩ := stage.tracker.collect_alike stage.paths stage.world
  obtain ⟨bs, htook⟩ := stage.tracker.collect_took stage.paths stage.world
  rw [← halike.settings] at hroom
  have hread : stage.read = (stage.tracker.collect stage.paths stage.world).1.trim.save
    (stage.tracker.collect stage.paths stage.world).2 := rfl
  rw [hcollected.trim hroom] at hread
  rw [← htook.tree, hread] at hgrows
  rw [hread]
  generalize stage.tracker.collect stage.paths stage.world = c at *
  have houtlet := save_outlet c.1 c.2
  have hsaved := hcollected.onward hgrows (by rw [houtlet]; exact hcollected.mild) (by rw [houtlet])
  refine ⟨c.1.kept, hsaved, fun k' hk' => ?_⟩
  rw [save_tracker hk']
  exact ⟨rfl, halike.policy, hroom, hsaved⟩

theorem AtEnds.poll {met : List (Nat × Fingerprint)} {f : Policy} {low : Nat → Nat} {k : Tracker}
    {w : World} (hrivals : NoRivals met) (hend : f.fromBeginning = false)
    (hsights : ∀ stage ∈ k.stages w, ∀ x ∈ stage.sights, x ∈ met)
    (hgrows : ∀ stage ∈ k.stages w, stage.world.tree.Grows stage.read.2.tree)
    (h : AtEnds met f low k w) :
    ∃ rs, Skips met f.fingerprintSize f.limit low (fun _ => False) (k.poll w).2 rs ∧
      ∀ k', (k.poll w).1 = some k' → k'.kept = rs := by
  have hlook {w : World} {rs : List Reader}
      (hs : Skips met f.fingerprintSize f.limit low (fun _ => False) w rs) :
      Skips met f.fingerprintSize f.limit low (fun _ => False) (looked w) rs :=
    hs.onward (.refl _) (w.outlet.took_look.verdict.symm ▸ hs.mild)
      w.outlet.took_look.accepted
  have hbegun : AtEnds met f low { k with gathered := [] } w := ⟨h.policy, h.room, h.skips⟩
  refine (readBatches_runs (P := AtEnds met f low)
    (Q := fun o w => ∃ rs, Skips met f.fingerprintSize f.limit low (fun _ => False) w rs ∧
      ∀ k', o = some k' → k'.kept = rs) (chunks_ne_nil _ _) ?_ ?_ ?_ ?_ hbegun).1
  · intro stage hstage k' hk hread _
    obtain ⟨rs, _, hnext⟩ := hk.read hrivals hend (hsights stage hstage) (hgrows stage hstage)
    obtain ⟨_, hk'⟩ := hnext k' hread
    exact ⟨hk'.policy, hk'.room, hlook hk'.skips⟩
  · intro stage hstage hk
    obtain ⟨rs, hs, hnext⟩ := hk.read hrivals hend (hsights stage hstage) (hgrows stage hstage)
    exact ⟨rs, hs, fun k' hk' => (hnext k' hk').1⟩
  · rintro k w ⟨rs, hs, hkept⟩
    exact ⟨rs, hlook hs, hkept⟩
  · rintro k w ⟨rs, hs, hkept⟩
    refine ⟨rs, hs, fun k' hk' => ?_⟩
    cases hk'
    exact hkept k rfl

theorem tracker?_poll {k : Tracker} (hphase : s.consumer.phase = .running k) :
    (s.step .poll).tracker? = (k.poll s.world).1 := by
  simp only [tracker?, Session.step, Consumer.poll, hphase]
  cases k.poll s.world with
  | mk o w' => cases o <;> rfl

theorem Blank.skips (h : s.Blank c) (met : List (Nat × Fingerprint)) {low : Nat → Nat}
    (hlow : ∀ n, low n ≤ (s.world.tree.content n).length) (size limit : Nat) :
    Skips met size limit low (fun _ => False) s.world [] := by
  constructor
  case mild => exact h.mild
  case tracked => simp
  case apart => exact .nil
  case come => simp
  case marks => exact hlow
  case delivered => simp [World.delivered, Outlet.batches, h.accepted]

theorem Blank.keeps {met : List (Nat × Fingerprint)} (hroom : (filesOf met).length ≤ c.capacity)
    (h : s.Blank c) :
    Keeps (Spared met c.policy.fingerprintSize c.policy.limit (fun _ => 0) fun _ => False) s := by
  obtain ⟨k, hk, hkept, hgathered, hpolicy, hsettings⟩ := h.tracker
  have hskips := h.skips met (fun _ => Nat.zero_le _) c.policy.fingerprintSize c.policy.limit
  refine ⟨⟨[], .inl ⟨rfl, h.held⟩, ?_⟩, h.store⟩
  rw [hk]
  refine Spares.spared ⟨by rw [hpolicy], by rw [hpolicy], by rwa [hsettings], by rwa [hkept], ?_, h.mild, ?_⟩
    h.countable
  · simp [hgathered]
  · simp [hgathered]

section FirstPoll

variable {met : List (Nat × Fingerprint)} (hrivals : NoRivals met)
  (hroom : (filesOf met).length ≤ c.capacity)
include hrivals hroom

/-- The first poll leaves a reader for every file that it comes to, at the end of it or behind. -/
theorem Blank.polls {k : Tracker} (h : s.Blank c) (hphase : s.consumer.phase = .running k)
    (hend : c.startAt = .end) (hlawful : s.Lawful Mild .poll) (hmet : ∀ x ∈ (s.step .poll).met, x ∈ met) :
    Keeps (Spared met c.policy.fingerprintSize c.policy.limit s.mark (· ∈ s.comesTo)) (s.step .poll) := by
  obtain ⟨k', hk', hkept, _, hpolicy, hsettings⟩ := h.tracker
  obtain rfl : k = k' := by simpa [tracker?, hphase] using hk'
  have hstages := stages_running hphase
  have hsights (stage) (hstage : stage ∈ s.stages) (x) (hx : x ∈ stage.sights) : x ∈ met :=
    hmet x (mem_step_met hstage hx)
  have hbefore : AtEnds met c.policy s.mark k s.world :=
    ⟨hpolicy, by rwa [hsettings], by rw [hkept]; exact h.skips met s.mark_le _ _⟩
  obtain ⟨rs, hskips, hrs⟩ := hbefore.poll hrivals (by simp [Config.policy, hend])
    (by rw [← hstages]; exact hsights) (by rw [← hstages]; exact fun stage hstage => (hlawful stage hstage).1)
  obtain ⟨⟨files, hholds, hspared⟩, hstore⟩ :=
    Keeps.polls (spared_maintained hrivals fun n hn => absurd hn (Nat.lt_irrefl 0)) hlawful hmet
      (h.keeps hroom)
  rw [← step_poll hphase] at hskips
  refine ⟨⟨files, hholds, hspared.countable, hspared.mild, hskips.delivered, fun k' hk' => ?_⟩, hstore⟩
  have hspares := hspared.spares k' hk'
  have hpoll : (k.poll s.world).1 = some k' := by rw [← tracker?_poll hphase, hk']
  obtain rfl := hrs k' hpoll
  refine { hspares with skips := { hskips with come := fun n hn => ?_ } }
  -- the file is named in the checkpoint, and what that names has a reader
  obtain ⟨stage, hstage, fp, hx⟩ := exists_of_comesTo hn
  have hin : stage ∈ k.stages s.world := hstages ▸ hstage
  have hmild : Mild stage.world.outlet.verdict := by
    obtain ⟨bs, htook⟩ := ((poll_took k s.world).2 stage hin).1
    rw [htook.verdict]
    exact h.mild
  obtain ⟨e, he, hseen⟩ := (stage.entries_iff hrivals hmild (hsights stage hstage) n).mpr ⟨fp, hx⟩
  have hgathered : e ∈ k'.gathered := by
    rw [gathered_readBatches (chunks_ne_nil _ _) hpoll]
    exact List.mem_append_right _ (List.mem_flatMap.mpr ⟨stage, hin, he⟩)
  obtain ⟨r, hr, hstart⟩ := hspares.covered.covered _
    (List.mem_map_of_mem (List.mem_append_left _ hgathered))
  obtain ⟨m, ha⟩ := hskips.tracked r hr
  exact ⟨r, hr, by rw [hrivals.same hseen ha.seen hstart]; exact ha.seen⟩

theorem Blank.unread {k : Tracker} (h : s.Blank c) (hphase : s.consumer.phase = .running k)
    (hsize : 0 < c.policy.fingerprintSize) (hlawful : s.Lawful Mild .poll)
    (hmet : ∀ x ∈ (s.step .poll).met, x ∈ met) {stage : Stage} (hstage : stage ∈ s.stages) {path : Path}
    {handle : Handle} (hopen : stage.world.tree.openFile path = .ok handle)
    (hid : stage.tracker.identify stage.world.tree path = none) :
    s.world.tree.content handle.node = [] := by
  rw [stages_running hphase] at hstage
  have hgrows : s.world.tree.Grows stage.world.tree :=
    ((readBatches_between (R := fun w w' => w.tree.Grows w'.tree) (fun _ => .refl _)
      (fun _ _ _ h h' => h.trans h') (fun _ => .refl _) (fun stage hstage =>
        (hlawful stage (by rwa [stages_running hphase])).1)).2 stage hstage).1
  have hspared : Maintained Mild met
      (Spared met c.policy.fingerprintSize c.policy.limit (fun _ => 0) fun _ => False) :=
    spared_maintained hrivals fun n hn => absurd hn (Nat.lt_irrefl 0)
  obtain ⟨_, files, _, _, _, hk⟩ :=
    (Keeps.poll hspared hphase hlawful hmet (h.keeps hroom)).2 stage hstage
  have hempty := content_of_identify_none hid hopen (by rw [(hk.spares _ rfl).takes]; exact hsize)
  exact List.prefix_nil.mp (hempty ▸ hgrows handle.node)

end FirstPoll

/-- A consumer that starts at the end delivers no record from below what a file had at the first poll,
if no fingerprint of one file is a start of one of another and the emitter does not die. This holds of
all files that the first poll comes to, which are all that it is to follow if it is complete. -/
theorem old_content_skipped {before after : List Act} (hfresh : s.Fresh c) (hend : c.startAt = .end)
    (hfirst : ∀ a ∈ before, a ≠ .poll)
    (hlawful : s.Allows (Lawful Mild) (before ++ .poll :: after))
    (hlives : ∀ a ∈ before ++ .poll :: after, a.goesOn = true)
    (hrivals : NoRivals (s.run (before ++ .poll :: after)).met)
    (hroom : (filesOf (s.run (before ++ .poll :: after)).met).length ≤ c.capacity) :
    (∀ stage ∈ (s.run before).stages, ∀ path ∈ stage.paths, ∀ h,
      stage.world.tree.openFile path = .ok h →
        ∀ a ∈ (s.run (before ++ .poll :: after)).world.delivered
            (s.run (before ++ .poll :: after)).met h.node,
          ((s.run before).world.tree.content h.node).length ≤ a.span.offset) ∧
    ∀ k, (s.run before).consumer.phase = .running k → k.Completes (s.run before).world →
      ∀ path ∈ k.matched (s.run before).world.tree, ∃ stage ∈ (s.run before).stages, path ∈ stage.paths := by
  have hrun : s.run (before ++ .poll :: after) = ((s.run before).step .poll).run after := by
    rw [run_append]
    rfl
  rw [hrun] at hrivals hroom ⊢
  obtain ⟨hbefore, hpoll, hafter⟩ := allows_append.mp hlawful
  have hblank : (s.run before).Blank c :=
    hfresh.blank.run hbefore (fun a ha => hlives a (by simp [ha])) hfirst
  generalize s.run before = p at *
  have hmet := (p.step .poll).run_met after
  have hsize : 0 < c.policy.fingerprintSize :=
    (Consumer.ofConfig_ok hfresh.built).1.fingerprintSize_pos
  constructor
  · intro stage hstage path hpath h hopen a ha
    cases hphase : p.consumer.phase with
    | stopped k | crashed | lost => simp [stages, hphase] at hstage
    | running k =>
        have hkeeps := hblank.polls hrivals hroom hphase hend hpoll fun x hx => hmet.subset hx
        obtain ⟨files, _, hspared⟩ := (run_keeps (spared_maintained hrivals fun n => comesTo_of_mark)
          hafter (fun a ha hends => by simp [hlives a (by simp [ha])] at hends) (fun _ h => h) hkeeps).holds
        have hlow := hspared.delivered h.node a ha
        cases hid : stage.tracker.identify stage.world.tree path with
        | some id =>
            obtain ⟨h', fp⟩ := id
            obtain ⟨hopen', _⟩ := identify_some hid
            obtain rfl : h' = h := by simpa [hopen] using hopen'.symm
            rwa [mark, if_pos (mem_comesTo hstage (mem_sights hpath hid))] at hlow
        | none =>
            have hempty := hblank.unread hrivals hroom hphase hsize hpoll (fun x hx => hmet.subset hx) hstage
              hopen hid
            rw [hempty]
            exact Nat.zero_le _
  · intro k hphase hall path hpath
    rw [stages_running hphase]
    exact hall.stage hpath

def followEnds : Config := { followLogs with startAt := .end }

def endFollower : Consumer := .ofParts ⟨["*.log"], [], none⟩ followEnds.policy followEnds.settings

theorem ofConfig_followEnds : Consumer.ofConfig followEnds = .ok endFollower := rfl

theorem old_content_skipped_logs :
    let s := ofConsumer endFollower (ofFiles [("a.log", true, [97, 10]), ("b.log", true, [98, 10])])
    let acts : List Act := [.start] ++ .poll :: [.change (ofFiles [("a.log", true, [97, 10, 97, 97, 10]),
      ("b.log", true, [98, 10, 98, 98, 10]), ("c.log", true, [99, 10])]), .poll]
    s.Fresh followEnds ∧ s.Allows (Lawful Mild) acts ∧ (∀ a ∈ acts, a.goesOn = true) ∧
      NoRivals (s.run acts).met ∧ (filesOf (s.run acts).met).length ≤ followEnds.capacity ∧
      (s.run acts).world.outlet.batches.map Batch.records =
        [[⟨"bb", 2, 3⟩], [⟨"aa", 2, 3⟩], [⟨"c", 0, 2⟩]] ∧
      ∀ n ∈ [3, 4], ∀ a ∈ (s.run acts).world.delivered (s.run acts).met n, 2 ≤ a.span.offset := by
  intro s acts
  have hmemory : s.InMemory := inMemory_ofConsumer ofConfig_followEnds _
  have hcount : Countable s.world.tree := countable_of_nodes (by decide)
  have hfresh : s.Fresh followEnds := fresh_ofConsumer ofConfig_followEnds hcount
  have hlawful : s.Allows (Lawful Mild) acts := hmemory.allows hcount
    ⟨FileTree.grows_of_nodes (by decide), countable_of_nodes (by decide), trivial⟩
  have hlives : ∀ a ∈ acts, a.goesOn = true := by decide
  have hrun : NoRivals (s.run acts).met ∧ (filesOf (s.run acts).met).length ≤ followEnds.capacity ∧
      (s.run acts).world.outlet.batches.map Batch.records =
        [[⟨"bb", 2, 3⟩], [⟨"aa", 2, 3⟩], [⟨"c", 0, 2⟩]] := by decide +kernel
  obtain ⟨hrivals, hroom, hbatches⟩ := hrun
  obtain ⟨hskipped, _⟩ := old_content_skipped hfresh rfl (by simp) hlawful hlives hrivals hroom
  have hstages : ∀ x ∈ [((⟨"a.log"⟩ : Path), 3), (⟨"b.log"⟩, 4)], ∃ stage ∈ (s.run [.start]).stages,
      x.1 ∈ stage.paths ∧ (stage.world.tree.openFile x.1).toOption.map Handle.node = some x.2 ∧
        ((s.run [.start]).world.tree.content x.2).length = 2 := by decide +kernel
  have hlow (path : Path) (n : Nat) (hpath : (path, n) ∈ [((⟨"a.log"⟩ : Path), 3), (⟨"b.log"⟩, 4)]) :
      ∀ a ∈ (s.run acts).world.delivered (s.run acts).met n, 2 ≤ a.span.offset := by
    obtain ⟨stage, hstage, hin, hopen, hlength⟩ := hstages (path, n) hpath
    cases hfile : stage.world.tree.openFile path with
    | error e => simp [hfile, Except.toOption] at hopen
    | ok h =>
        obtain rfl : h.node = n := by simpa [hfile, Except.toOption] using hopen
        exact hlength ▸ hskipped stage hstage path hin h hfile
  refine ⟨hfresh, hlawful, hlives, hrivals, hroom, hbatches, ?_⟩
  simp only [List.forall_mem_cons]
  exact ⟨hlow ⟨"a.log"⟩ 3 (by simp), hlow ⟨"b.log"⟩ 4 (by simp), by simp⟩

end Session

end LogTail

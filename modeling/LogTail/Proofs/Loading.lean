import LogTail.Proofs.Streams

namespace LogTail

open Json Json.Lexeme

namespace Checkpoint

theorem decode_of_format {bs : Bytes} (h : format bs = .stream) : decode bs = ofStream bs := by
  unfold format at h
  unfold decode
  split at h
  · cases h
  · next hblank =>
      rw [if_neg hblank]
      split at h
      · cases h
      · rfl

theorem isBlank_iff (b : UInt8) : isBlank b = true ↔ Lexeme.isBlank b = true ∨ b = 12 := by
  simp only [isBlank, Lexeme.isBlank, Bool.or_eq_true, decide_eq_true_eq]
  tauto

theorem format_digit {c t : Bytes} {b : UInt8} (hc : Blanks c) (hb : isDigit b = true) :
    format (c ++ b :: t) = .stream := by
  have hblank : ¬ (c ++ b :: t).all isBlank = true := by
    rw [List.all_eq_true]
    intro hall
    rcases (isBlank_iff b).mp (hall b (by simp)) with h | rfl
    · rw [(digit_apart hb).1] at h
      cases h
    · cases hb
  have hobject (ms : List (String × Value)) : Value.ofBytes (c ++ b :: t) ≠ .ok (.object ms) := by
    intro h
    rw [Value.ofBytes, Draft.ofBytes, Draft.read_blanks hc, Draft.read_number (.inr hb)] at h
    obtain ⟨v, hv, h⟩ := Draft.bind_ok h
    obtain ⟨_, -, h⟩ := Draft.bind_ok h
    cases h
    rcases Draft.of_container hv (.inr ⟨ms, rfl⟩) with ⟨_, h⟩ | ⟨_, h⟩ <;> cases h
  unfold format
  rw [if_neg hblank]
  split
  · next ms h => exact absurd h (hobject ms)
  · rfl

theorem StreamOf.format {files : List Metadata} {bs : Bytes} (h : StreamOf files bs) :
    Checkpoint.format bs = .stream := by
  obtain ⟨c, y, rest, rfl, hc, -⟩ := h.parts
  obtain ⟨b, t, hbt, hb⟩ := digits_cons files.length
  rw [hbt]
  exact format_digit hc hb

theorem blanks_unique {c c' x x' : Bytes} (hc : Blanks c) (hc' : Blanks c')
    (hx : ∀ b ∈ x.head?, Lexeme.isBlank b = false) (hx' : ∀ b ∈ x'.head?, Lexeme.isBlank b = false)
    (h : c ++ x = c' ++ x') : c = c' ∧ x = x' := by
  have hskip {c x : Bytes} (hc : Blanks c) (hx : ∀ b ∈ x.head?, Lexeme.isBlank b = false) :
      skipBlanks (c ++ x) = x := by
    rw [skipBlanks_append hc]
    cases x with
    | nil => rfl
    | cons b x => exact skipBlanks_cons (hx b rfl) x
  have hsame : x = x' := by rw [← hskip hc hx, h, hskip hc' hx']
  rw [hsame] at h
  exact ⟨List.append_cancel_right h, hsame⟩

theorem EntryText.unique {x x' r r' : Bytes} {m m' : Metadata} (h : EntryText x m) (h' : EntryText x' m')
    (heq : x ++ r = x' ++ r') : x = x' ∧ r = r' := by
  obtain ⟨d, v, hd, hv, hm⟩ := h.spells
  obtain ⟨d', v', hd', hv', hm'⟩ := h'.spells
  have hclosed := (hd.brackets (Draft.of_container hv (container_of_entry hm)) h.tight.first).1
  have hclosed' := (hd'.brackets (Draft.of_container hv' (container_of_entry hm')) h'.tight.first).1
  rcases List.append_eq_append_iff.mp heq with ⟨a, rfl, rfl⟩ | ⟨a, rfl, rfl⟩
  · obtain rfl := hd'.not_cut hclosed' hd
    simp
  · obtain rfl := hd.not_cut hclosed hd'
    simp

theorem EntryText.head {x : Bytes} {m : Metadata} (h : EntryText x m) (r : Bytes) :
    ∀ b ∈ (x ++ r).head?, Lexeme.isBlank b = false := by
  obtain ⟨d, v, hd, -⟩ := h.spells
  obtain ⟨b, t, rfl⟩ := List.exists_cons_of_length_pos hd.length_pos
  exact h.tight.first

theorem Entries.not_cut {files files' : List Metadata} {y y' r : Bytes} (h : Entries files y)
    (h' : Entries files' y') (hlen : files'.length = files.length) (heq : y' ++ r = y) : r = [] := by
  induction h generalizing files' y' with
  | nil => exact (List.append_eq_nil_iff.mp heq).2
  | cons hc hx hy ih =>
      cases h' with
      | nil => cases hlen
      | @cons c' x' z' m' ms' hc' hx' hy' =>
          rw [List.append_assoc, List.append_assoc] at heq
          obtain ⟨-, hrest⟩ := blanks_unique hc' hc (hx'.head _) (hx.head _) heq
          obtain ⟨-, hnext⟩ := hx'.unique hx hrest
          exact ih hy' (by simpa using hlen) hnext

theorem digits_inj {n n' : Nat} (h : digits n = digits n') : n = n' := by
  rw [← (digits_spec n).2, ← (digits_spec n').2, h]

/-- A stream that is cut before its last byte is no stream, of whatever files. -/
theorem StreamOf.not_cut {files files' : List Metadata} {c y bs r : Bytes} (hne : files ≠ [])
    (hc : Blanks c) (hy : Entries files y) (h : StreamOf files' bs)
    (heq : bs ++ r = c ++ (digits files.length ++ y)) : r = [] := by
  have hhead (n : Nat) (t : Bytes) : ∀ b ∈ (digits n ++ t).head?, Lexeme.isBlank b = false := by
    obtain ⟨b, u, hbu, hb⟩ := digits_cons n
    rw [hbu]
    rintro _ ⟨⟩
    exact (digit_apart hb).1
  have hdelimited : Delimited y := by
    obtain ⟨m, ms, rfl⟩ := List.exists_cons_of_ne_nil hne
    simpa using hy.delimited []
  obtain ⟨c', y', rest, rfl, hc', hy', hrest⟩ := h.parts
  rw [List.append_assoc, List.append_assoc, List.append_assoc] at heq
  obtain ⟨-, hcount⟩ := blanks_unique hc' hc (hhead _ _) (hhead _ _) heq
  cases files' with
  | nil =>
      -- The count of no entries is a zero, and no other count begins with one.
      exfalso
      obtain ⟨b, t, hbt, hzero⟩ := digits_head files.length
      have h0 : digits 0 = [48] := by decide
      rw [List.length_nil, h0, hbt] at hcount
      have hlen : files.length = 0 := by
        apply digits_inj
        rw [h0, hbt, ← (List.cons.inj hcount).1, hzero (List.cons.inj hcount).1.symm]
      exact hne (List.length_eq_zero_iff.mp hlen)
  | cons m' ms' =>
      have hstops (n : Nat) {t : Bytes} (ht : Delimited t) :
          (digits n ++ t).takeWhile isDigit = digits n ∧ (digits n ++ t).dropWhile isDigit = t :=
        takeWhile_append (digits_spec n).1 fun b u hb => (ht.stops b u hb).1
      have hfront := hstops (m' :: ms').length (hy'.delimited (rest ++ r))
      have hwhole := hstops files.length hdelimited
      rw [hcount, hwhole.1, hwhole.2] at hfront
      have hnil := hy.not_cut hy' (digits_inj hfront.1.symm) hfront.2.symm
      exact (List.append_eq_nil_iff.mp hnil).2

theorem cut_stream {files : List Metadata} {c y bs r : Bytes} (hne : files ≠ []) (hc : Blanks c)
    (hy : Entries files y) (heq : bs ++ r = c ++ (digits files.length ++ y)) (hbs : ¬ Blanks bs)
    (hr : r ≠ []) : ∃ f, decode bs = .error f := by
  obtain ⟨b, u, hbu, hb⟩ := digits_cons files.length
  obtain ⟨t, rfl⟩ : ∃ t, bs = c ++ b :: t := by
    rw [hbu] at heq
    rcases List.append_eq_append_iff.mp heq with ⟨a, hca, -⟩ | ⟨a, rfl, ha⟩
    · exact absurd (fun x hx => hc x (by rw [hca]; exact List.mem_append_left _ hx)) hbs
    · cases a with
      | nil =>
          rw [List.append_nil] at hbs
          exact absurd hc hbs
      | cons b' a =>
          rw [← (List.cons.inj ha).1]
          exact ⟨a, rfl⟩
  have hformat := format_digit (t := t) hc hb
  rw [decode_of_format hformat]
  cases hstream : ofStream (c ++ b :: t) with
  | error f => exact ⟨f, rfl⟩
  | ok files' => exact absurd ((ofStream_iff.mp hstream).not_cut hne hc hy heq) hr

theorem cut_document {files : List Metadata} {bs r : Bytes} (heq : bs ++ r = encode files) (hbs : bs ≠ [])
    (hr : r ≠ []) : ∃ f, decode bs = .error f := by
  have hspells := Value.spells_print (Document.ofFiles files).written
  rw [← encode, ← heq] at hspells
  obtain ⟨-, hvoid⟩ := hspells.cut trivial hr (3 * bs.length + 3)
  obtain ⟨f, hf⟩ := hvoid Draft.maxDepth
  obtain ⟨t, rfl⟩ : ∃ t, bs = 123 :: t := by
    obtain ⟨b, t, rfl⟩ := List.exists_cons_of_ne_nil hbs
    have hb : b = 123 := (List.cons.inj (heq.trans rfl)).1
    exact ⟨t, by rw [hb]⟩
  have hblank : ¬ (123 :: t).all isBlank = true := by simp [isBlank]
  have hparse : Value.ofBytes (123 :: t) = .error f := by
    rw [Value.ofBytes, Draft.ofBytes]
    dsimp only
    rw [hf]
    rfl
  have hnext : nextValue (123 :: t) = some (.error f) := by
    have hskip : skipBlanks (123 :: t) = 123 :: t := skipBlanks_cons (by decide) t
    rw [nextValue, hskip]
    dsimp only
    rw [Draft.ofBytes, hf]
  refine ⟨.corrupt f, ?_⟩
  rw [decode, if_neg hblank, hparse]
  dsimp only
  rw [ofStream, hnext]

def olderEntry : Value :=
  .object [("Fingerprint", .object [("first_bytes", .string "YQ==")]), ("Offset", .nat 2)]

theorem olderEntry_text : EntryText olderEntry.print ⟨⟨[97]⟩, 2, []⟩ := by
  refine ⟨⟨by decide +kernel, by decide +kernel⟩, olderEntry.ordered, ?_, rfl⟩
  exact Value.ofBytes_print ⟨⟨trivial, trivial⟩, (by decide : 2 < Number.limit), trivial⟩ (by decide)

theorem olderEntry_entries : Entries [⟨⟨[97]⟩, 2, []⟩] olderEntry.print := by
  have hentries : Entries [⟨⟨[97]⟩, 2, []⟩] ([] ++ (olderEntry.print ++ [])) :=
    .cons blanks_nil olderEntry_text .nil
  simpa using hentries

end Checkpoint

namespace Store

variable {p : Store} {m : MemoryStore} {bs : Bytes}

theorem load_of_get (hget : p.get m Checkpoint.key = .ok (some bs)) :
    p.load m = match Checkpoint.decode bs with
      | .ok files => .ok (files, Checkpoint.format bs)
      | .error f => .error (.checkpoint f) := by
  unfold load
  rw [hget]
  rfl

/-- A stream is loaded just from bytes that begin with a count and as many entries. The bytes behind the
last entry are not looked at: whatever stands there is dropped. -/
theorem load_stream_iff (hget : p.get m Checkpoint.key = .ok (some bs)) (files : List Metadata) :
    p.load m = .ok (files, .stream) ↔
      files.length < Number.limit ∧
      ∃ c entries rest, bs = c ++ (digits files.length ++ (entries ++ rest)) ∧ Blanks c ∧
        Checkpoint.Entries files entries ∧ (files = [] → Checkpoint.Delimited rest) := by
  have hstream : p.load m = .ok (files, .stream) ↔ Checkpoint.StreamOf files bs := by
    rw [load_of_get hget, ← Checkpoint.ofStream_iff]
    constructor
    · intro h
      split at h
      · next files' hdecode =>
          obtain ⟨rfl, hformat⟩ := Prod.mk.inj (Except.ok.inj h)
          rwa [Checkpoint.decode_of_format hformat] at hdecode
      · cases h
    · intro h
      have hformat := (Checkpoint.ofStream_iff.mp h).format
      rw [Checkpoint.decode_of_format hformat, h, hformat]
  rw [hstream]
  exact ⟨fun h => ⟨h.fits, h.parts⟩, fun h => ⟨h.2, h.1⟩⟩

/-- A byte behind the last entry is dropped. -/
theorem load_stream_dropped :
    let bs := digits 1 ++ (Checkpoint.olderEntry.print ++ [33])
    let m := MemoryStore.empty.put Checkpoint.key bs
    memory.get m Checkpoint.key = .ok (some bs) ∧ memory.load m = .ok ([⟨⟨[97]⟩, 2, []⟩], .stream) :=
  ⟨rfl, (load_stream_iff rfl [⟨⟨[97]⟩, 2, []⟩]).mpr
    ⟨by decide, [], Checkpoint.olderEntry.print, [33], rfl, blanks_nil, Checkpoint.olderEntry_entries, nofun⟩⟩

/-- No beginning of a checkpoint is taken for one: neither of a document, cut anywhere, nor of a stream,
cut before the last byte of its last entry. A whole stream yields the files of its entries, as many as
a count can tell. -/
theorem load_cut_off (hget : p.get m Checkpoint.key = .ok (some bs)) :
    (∀ files rest, bs ++ rest = Checkpoint.encode files → bs ≠ [] → rest ≠ [] →
      ∃ f, p.load m = .error (.checkpoint f)) ∧
    ∀ files c entries, files ≠ [] → Blanks c → Checkpoint.Entries files entries →
      (∀ rest, bs ++ rest = c ++ (digits files.length ++ entries) → ¬ Blanks bs → rest ≠ [] →
        ∃ f, p.load m = .error (.checkpoint f)) ∧
      (∀ behind, bs = c ++ (digits files.length ++ (entries ++ behind)) → Blanks behind →
        files.length < Number.limit → p.load m = .ok (files, .stream)) := by
  have hload {f : Checkpoint.Fault} (hf : Checkpoint.decode bs = .error f) :
      p.load m = .error (.checkpoint f) := by
    rw [load_of_get hget, hf]
  constructor
  · intro files rest heq hbs hrest
    obtain ⟨f, hf⟩ := Checkpoint.cut_document heq hbs hrest
    exact ⟨f, hload hf⟩
  · intro files c entries hne hc hentries
    constructor
    · intro rest heq hbs hrest
      obtain ⟨f, hf⟩ := Checkpoint.cut_stream hne hc hentries heq hbs hrest
      exact ⟨f, hload hf⟩
    · intro behind heq hbehind hfits
      have hstream : Checkpoint.StreamOf files bs :=
        ⟨⟨c, entries, behind, heq, hc, hentries, fun h => absurd h hne⟩, hfits⟩
      have hformat := hstream.format
      rw [load_of_get hget, Checkpoint.decode_of_format hformat, Checkpoint.ofStream_iff.mpr hstream,
        hformat]

theorem load_cut_off_stream :
    let stream := digits 1 ++ Checkpoint.olderEntry.print
    let holding (bs : Bytes) := MemoryStore.empty.put Checkpoint.key bs
    (∃ f, memory.load (holding ((Checkpoint.encode [⟨⟨[97]⟩, 2, []⟩]).take 5)) = .error (.checkpoint f)) ∧
    (∃ f, memory.load (holding (stream.take 7)) = .error (.checkpoint f)) ∧
    memory.load (holding stream) = .ok ([⟨⟨[97]⟩, 2, []⟩], .stream) := by
  intro stream holding
  have hget (bs : Bytes) : memory.get (holding bs) Checkpoint.key = .ok (some bs) := rfl
  have hstream := Checkpoint.olderEntry_entries
  refine ⟨?_, ?_, ?_⟩
  · exact (load_cut_off (hget _)).1 [⟨⟨[97]⟩, 2, []⟩] _ (List.take_append_drop 5 _) (by decide) (by decide)
  · exact ((load_cut_off (hget _)).2 _ [] _ (by simp) blanks_nil hstream).1 _
      (List.take_append_drop 7 stream) (by decide) (by decide)
  · exact ((load_cut_off (hget _)).2 _ [] _ (by simp) blanks_nil hstream).2 [] (by simp [stream])
      blanks_nil (by decide)

end Store

end LogTail

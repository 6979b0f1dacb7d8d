import LogTail.Proofs.Durability
import LogTail.Proofs.Extensions
import LogTail.Proofs.Parts

namespace LogTail

namespace Path

theorem stem_prefix (name : String) : ∃ ext : List Char, name.toList = (stem name).toList ++ ext := by
  have hall := List.takeWhile_append_dropWhile (p := (· ≠ '.')) (l := name.toList.reverse)
  rw [stem]
  split
  · next d c cs hbehind =>
      split
      · exact ⟨[], by simp⟩
      · rw [hbehind] at hall
        have hname := congrArg List.reverse hall
        rw [List.reverse_reverse, List.reverse_append] at hname
        refine ⟨d :: (name.toList.reverse.takeWhile (· ≠ '.')).reverse, hname.symm.trans ?_⟩
        simp
  · exact ⟨[], by simp⟩

theorem stem_extended {name : String} {before ext : List Char} (h : name.toList = before ++ '.' :: ext)
    (hext : '.' ∉ ext) : (stem name).toList = before ∨ stem name = name := by
  have hbehind : name.toList.reverse.dropWhile (· ≠ '.') = '.' :: before.reverse := by
    rw [h, List.reverse_append, List.reverse_cons, List.append_assoc, List.dropWhile_append_of_pos]
    · simp
    · intro c hc
      have hne : c ≠ '.' := fun heq => hext (by rw [← heq]; exact List.mem_reverse.mp hc)
      exact decide_eq_true hne
  rw [stem, hbehind]
  cases hrev : before.reverse with
  | nil => exact .inr rfl
  | cons c cs =>
      dsimp only
      split
      · exact .inr rfl
      · left
        rw [String.toList_ofList, ← hrev, List.reverse_reverse]

end Path

namespace Database

open Json

variable {t t' : FileTree} {p : Path} {name : String} {db live : Database} {scope key : String} {bs : Bytes}
  {fault : Option Fault}

def temporaryName (name : String) (n : Nat) : String := Path.stem name ++ "." ++ s!"tmp.1.{n}"

theorem temporaryName_toList (name : String) (n : Nat) : (temporaryName name n).toList =
    (Path.stem name).toList ++ ".tmp.1".toList ++ '.' :: Nat.toDigits 10 n := by
  have hn : (toString n).toList = Nat.toDigits 10 n := Nat.toList_repr
  have htext : (toString "tmp.1.").toList = ['t', 'm', 'p', '.', '1', '.'] := rfl
  simp [temporaryName, htext]

theorem not_mem_digits {c : Char} (hc : c.isDigit = false) (n : Nat) : c ∉ Nat.toDigits 10 n := by
  intro hmem
  rw [Nat.isDigit_of_mem_toDigits (by decide) (by decide) hmem] at hc
  cases hc

theorem temporaryName_slash (h : '/' ∉ name.toList) (n : Nat) : '/' ∉ (temporaryName name n).toList := by
  obtain ⟨ext, hext⟩ := Path.stem_prefix name
  have hstem : '/' ∉ (Path.stem name).toList := fun hmem => h (by rw [hext]; exact List.mem_append_left _ hmem)
  have hdigits := not_mem_digits (c := '/') (by decide) n
  rw [temporaryName_toList]
  simp [hstem, hdigits]

theorem temporaryName_length (name : String) (n : Nat) :
    (Path.stem name).toList.length + 7 ≤ (temporaryName name n).toList.length := by
  rw [temporaryName_toList]
  simp

theorem temporaryName_ne (name : String) (n : Nat) : temporaryName name n ≠ name := by
  intro heq
  have hlist := temporaryName_toList name n
  have hlength := congrArg List.length hlist
  rw [heq] at hlist hlength
  rcases Path.stem_extended hlist (not_mem_digits (by decide) n) with hstem | hstem
  · have hstem := congrArg List.length hstem
    simp at hstem
  · rw [hstem] at hlength
    simp at hlength

theorem temporary_last (h : p.fileName? = some name) (n : Nat) :
    (temporary p n).parts.getLast? = some (temporaryName name n) := by
  rw [temporary, Path.withExtension, h]
  refine Path.parts_ofComponents (temporaryName_slash (Path.slash_of_fileName h) n) ?_
  intro hempty
  have hlength := temporaryName_length name n
  change temporaryName name n = "" at hempty
  rw [hempty] at hlength
  simp at hlength

theorem last_ne_temporary (h : p.fileName? = some name) (n : Nat) :
    p.parts.getLast? ≠ some (temporaryName name n) := by
  intro hlast
  have hlength := temporaryName_length name n
  have hname := Path.fileName_of_last hlast (by rintro heq; rw [heq] at hlength; simp at hlength)
    (by rintro heq; rw [heq] at hlength; simp at hlength)
  rw [h] at hname
  exact temporaryName_ne name n (Option.some.inj hname).symm

/-- The name of the temporary file is used nowhere once the directories above the path are there. -/
def Spare (trouble : Trouble) (t : FileTree) (p : Path) : Prop :=
  ∀ name, p.fileName? = some name →
    (parentStep trouble t p).2.Unused (temporaryName name (parentStep trouble t p).2.nodes.length)

def Leftover (t t' : FileTree) (p : Path) : Prop :=
  t' = t ∨ ∃ name, p.parts.getLast? ≠ some name ∧ t.Unused name ∧ FileTree.Extends (FileTree.fileNamed name) t t'

theorem exists_of_contentAt {q : Path} (h : t.contentAt q = .ok bs) : t.fileExists q = true := by
  cases hlocate : t.locate q with
  | ok n => rw [FileTree.fileExists, hlocate]
  | error f =>
      rw [FileTree.locate] at hlocate
      rw [FileTree.contentAt, FileTree.openFile] at h
      cases hfound : t.resolve true q with
      | error f =>
          rw [hfound] at h
          cases h
      | ok target =>
          rw [hfound] at h hlocate
          cases target with
          | vacant d s => cases h
          | directory d => cases hlocate
          | entry i e => cases hlocate

theorem Leftover.contentAt (hs : t.Sound) (h : Leftover t t' p) {q : Path} (hq : t.fileExists q = true) :
    t'.contentAt q = t.contentAt q := by
  rcases h with rfl | ⟨name, -, -, hgrows⟩
  · rfl
  · exact hgrows.contentAt hs hq

theorem Leftover.fileExists (hs : t.Sound) (h : Leftover t t' p) (hp : t'.fileExists p = true) :
    t.fileExists p = true := by
  rcases h with rfl | ⟨name, hlast, hunused, hgrows⟩
  · exact hp
  · exact hunused.fileExists_back hs hgrows hlast hp

theorem parentStep_grows (trouble : Trouble) (t : FileTree) (p : Path) :
    FileTree.Extends FileTree.anything t (parentStep trouble t p).2 := by
  rw [parentStep]
  split
  · split
    · exact .refl _ t
    split
    · exact .refl _ t
    · exact .makeDirectories t _
  · exact .refl _ t

/-- Whatever step fails, the file at the path stays as it was. -/
theorem replaceFile_failed (hs : t.Sound) {trouble : Trouble} (hspare : Spare trouble t p)
    (h : (replaceFile trouble t p bs).1 = some f) :
    Leftover (parentStep trouble t p).2 (replaceFile trouble t p bs).2 p := by
  have hkeeps := parentStep_keeps hs trouble p
  rw [Spare] at hspare
  rw [replaceFile] at h ⊢
  generalize parentStep trouble t p = made at *
  obtain ⟨fault, t₁⟩ := made
  cases fault with
  | some e => exact .inl rfl
  | none =>
      dsimp only at *
      cases hcreate : (trouble .create).elim (t₁.write (freshPath t₁ p) []) .error with
      | error e => exact .inl rfl
      | ok t₂ =>
          rw [hcreate] at h
          have hwrite := elim_ok hcreate
          obtain ⟨name, hname⟩ : ∃ name, p.fileName? = some name := by
            cases hname : p.fileName? with
            | some name => exact ⟨name, rfl⟩
            | none =>
                rw [freshPath, Path.withExtension, hname] at hwrite
                refine absurd hwrite (FileTree.write_unnamed ?_)
                intro s hlast
                by_contra hne
                rw [not_or] at hne
                rw [Path.fileName_of_last hlast hne.1 hne.2] at hname
                cases hname
          have hunused := hspare name hname
          have hlast := temporary_last hname t₁.nodes.length
          obtain ⟨d, hbeside⟩ := hunused.write hkeeps.sound (p := temporary p t₁.nodes.length) (by
            intro s hs
            rw [hlast] at hs
            exact (Option.some.inj hs).symm) hwrite
          refine .inr ⟨_, last_ne_temporary hname _, hunused, ?_⟩
          revert h
          dsimp only
          split
          · exact fun _ => hbeside.grows
          split
          · exact fun _ => hbeside.grows
          split
          · exact fun _ => hbeside.grows
          next hrewrite =>
          have hbeside := hbeside.write hrewrite
          split
          · intro h
            cases h
          · intro _
            dsimp only
            split
            · next hremove => exact hbeside.removeFile hremove
            · exact hbeside.grows

theorem get_congr (h : live.find scope key = db.find scope key) : live.get scope key = db.get scope key := by
  rw [get, get, h]

theorem get_stored (hwhole : ∀ v, Value.ofBytes bs = .ok v → v.WholeNumbers)
    (hfind : db.find scope key = some (stored bs)) :
    ∃ out, db.get scope key = .ok (some out) ∧ Value.ofBytes out = Value.ofBytes bs ∧
      (out = bs ∨ (∃ ms, Value.ofBytes bs = .ok (.object ms)) ∨ ∃ vs, Value.ofBytes bs = .ok (.array vs)) := by
  have hprinted {v : Value} (hv : Value.ofBytes bs = .ok v) : Value.ofBytes v.print = Value.ofBytes bs := by
    rw [Value.ofBytes_print (hwhole v hv) (Value.nest_ofBytes hv), Value.ordered_ofBytes hv, hv]
  rw [stored] at hfind
  rw [get, hfind]
  split at hfind
  · next ms hv => exact ⟨_, rfl, hprinted hv, .inr (.inl ⟨ms, hv⟩)⟩
  · next vs hv => exact ⟨_, rfl, hprinted hv, .inr (.inr ⟨vs, hv⟩)⟩
  · refine ⟨bs, ?_, rfl, .inl rfl⟩
    dsimp only
    rw [Base64.decode_encode]

theorem set_failed {f : Fault} (trouble : Trouble) (t : FileTree)
    (h : (db.set trouble t scope key bs).1 = some f) :
    ∃ content, replaceFile trouble t db.path content = (some f, (db.set trouble t scope key bs).2.2) := by
  rw [set] at h ⊢
  dsimp only at h ⊢
  by_cases hmemory : db.isInMemory = true
  · rw [if_pos hmemory] at h
    cases h
  · rw [if_neg hmemory] at h ⊢
    generalize (document (db.withScope scope (insertMember key (stored bs))).scopes).pretty 0 = content at h ⊢
    refine ⟨content, ?_⟩
    generalize replaceFile trouble t db.path content = result at h ⊢
    obtain ⟨fault, t'⟩ := result
    cases fault with
    | none => cases h
    | some g =>
        cases h
        rfl

/-- A value that is set is what its key answers, and no other key answers anything else than before. If it
cannot be set, no key answers anything else, every file has its content still, and what can be read at the
path is what could be read there as soon as the directories above it were made. -/
theorem set_or_undone (trouble : Trouble) (t : FileTree) (db : Database) (scope key : String) (bs : Bytes)
    (hwhole : ∀ v, Value.ofBytes bs = .ok v → v.WholeNumbers)
    (hset : db.set trouble t scope key bs = (fault, live, t')) :
    (∀ scope' key', (scope', key') ≠ (scope, key) → live.get scope' key' = db.get scope' key') ∧
    (fault = none → ∃ out, live.get scope key = .ok (some out) ∧ Value.ofBytes out = Value.ofBytes bs ∧
      (out = bs ∨ (∃ ms, Value.ofBytes bs = .ok (.object ms)) ∨ ∃ vs, Value.ofBytes bs = .ok (.array vs))) ∧
    (db.isInMemory = true → fault = none ∧ t' = t) ∧
    (fault ≠ none → live.get scope key = db.get scope key ∧
      (t.Sound → Spare trouble t db.path →
        (∀ q c, t.contentAt q = .ok c → t'.contentAt q = .ok c) ∧
        ∀ c, t'.contentAt db.path = .ok c → (parentStep trouble t db.path).2.contentAt db.path = .ok c)) := by
  have hsettled := set_settled trouble t db scope key bs
  have hfind := find_set trouble t db scope key bs
  have hfailed (f : Fault) (hf : (db.set trouble t scope key bs).1 = some f) := set_failed trouble t hf
  rw [hset] at hsettled hfind hfailed
  dsimp only at hsettled hfind hfailed
  refine ⟨fun scope' key' hne => get_congr (hsettled.others scope' key' hne), ?_, ?_, ?_⟩
  · rintro rfl
    exact get_stored hwhole hfind
  · intro hmemory
    rw [set] at hset
    dsimp only at hset
    rw [if_pos hmemory] at hset
    cases hset
    exact ⟨rfl, rfl⟩
  · intro hfault
    obtain ⟨f, rfl⟩ := Option.ne_none_iff_exists'.mp hfault
    obtain ⟨content, hreplace⟩ := hfailed f rfl
    refine ⟨get_congr hfind, ?_⟩
    intro hs hspare
    have hparent := (parentStep_keeps hs trouble db.path).sound
    have hleft := replaceFile_failed hs hspare (congrArg Prod.fst hreplace)
    rw [hreplace] at hleft
    constructor
    · intro q c hq
      have hkept := (parentStep_grows trouble t db.path).contentAt hs (exists_of_contentAt hq)
      rw [hq] at hkept
      rw [hleft.contentAt hparent (exists_of_contentAt hkept), hkept]
    · intro c hc
      rw [← hleft.contentAt hparent (hleft.fileExists hparent (exists_of_contentAt hc)), hc]

def oneList : Database × FileTree :=
  (⟨⟨"db.json"⟩, [("scope", [("key", .array [.bool true])])]⟩,
    FileTree.empty.add FileTree.home "db.json" (.file (Utf8.ofString "old")))

def noFlush : Trouble := fun step => if step = .flush then some .invalid else none

theorem oneList_sound : oneList.2.Sound :=
  FileTree.sound_add FileTree.sound_empty (by decide) rfl _

theorem oneList_spare : Spare noFlush oneList.2 oneList.1.path := by
  intro name hname
  obtain rfl : name = "db.json" := (Option.some.inj hname).symm
  refine ⟨?_, ?_⟩
  · intro e he _
    rw [List.mem_singleton.mp he]
    decide
  · intro n q hq
    have hmem : Node.link q ∈ oneList.2.nodes := List.mem_of_getElem? hq
    simp [oneList, FileTree.add, FileTree.empty] at hmem

theorem set_or_undone_list :
    (oneList.1.set noTrouble oneList.2 "scope" "key" [34]).2.1.get "scope" "key" = .ok (some [34]) ∧
    (oneList.1.set noFlush oneList.2 "scope" "key" [34]).2.1.get "scope" "key" = oneList.1.get "scope" "key" ∧
    (oneList.1.set noFlush oneList.2 "scope" "key" [34]).2.2.contentAt ⟨"db.json"⟩ = .ok (Utf8.ofString "old") := by
  have hwhole : ∀ v, Value.ofBytes [34] = .ok v → v.WholeNumbers := by
    intro v hv
    cases hv
  constructor
  · obtain ⟨-, htaken, -⟩ := set_or_undone noTrouble oneList.2 oneList.1 "scope" "key" [34] hwhole rfl
    obtain ⟨out, hget, -, hout⟩ := htaken rfl
    rcases hout with rfl | ⟨ms, hms⟩ | ⟨vs, hvs⟩
    · exact hget
    · cases hms
    · cases hvs
  · obtain ⟨-, -, -, hundone⟩ := set_or_undone noFlush oneList.2 oneList.1 "scope" "key" [34] hwhole rfl
    obtain ⟨hget, hfiles⟩ := hundone nofun
    exact ⟨hget, (hfiles oneList_sound oneList_spare).1 _ _ rfl⟩

end Database

end LogTail

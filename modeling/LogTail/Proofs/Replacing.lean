import LogTail.Proofs.Changes
import LogTail.Proofs.Reopening

namespace LogTail.Database

variable {t t' : FileTree} {p : Path}

def temporary (p : Path) (n : Nat) : Path := p.withExtension s!"tmp.1.{n}"

/-- Where the file of a database can stand: at a path that leads to a name and not through it, with no
symbolic link that bears the name of a temporary file. -/
structure Placed (t : FileTree) (p : Path) : Prop where
  sound : t.Sound
  place : p.endsWithSlash = false → ∃ d s, t.Names p d s
  clear : ∀ n d s, (temporary p n).parts.getLast? = some s → t.NoLinkAt d s

theorem Placed.keeps (h : Placed t p) (hkeeps : t.Keeps t') : Placed t' p where
  sound := hkeeps.sound
  place hslash := by
    obtain ⟨d, s, hnames⟩ := h.place hslash
    exact ⟨d, s, (hnames.keeps h.sound hslash (hkeeps.mono fun _ _ => False.elim)).1⟩
  clear n d s hs := hkeeps.noLinkAt (h.clear n d s hs)

theorem parentStep_keeps (hs : t.Sound) (trouble : Trouble) (p : Path) : t.Keeps (parentStep trouble t p).2 := by
  rw [parentStep]
  split
  · split
    · exact .refl hs
    split
    · exact .refl hs
    · exact t.makeDirectories_keeps hs _
  · exact .refl hs

theorem elim_ok {trouble : Option Errno} {x : Except Errno FileTree}
    (h : trouble.elim x .error = .ok t) : x = .ok t := by
  cases trouble with
  | none => exact h
  | some e => cases h

theorem replaceFile_placed (h : Placed t p) (trouble : Trouble) (bs : Bytes) :
    Placed (replaceFile trouble t p bs).2 p ∧
      ((replaceFile trouble t p bs).1 = none →
        (replaceFile trouble t p bs).2.fileExists p = true ∧
          (replaceFile trouble t p bs).2.contentAt p = .ok bs) := by
  have hparent := parentStep_keeps h.sound trouble p
  rw [replaceFile]
  split
  · next hstep =>
      rw [hstep] at hparent
      exact ⟨h.keeps hparent, nofun⟩
  next t₁ hstep =>
  rw [hstep] at hparent
  have h₁ := h.keeps hparent
  dsimp only
  split
  · exact ⟨h₁, nofun⟩
  next t₂ hcreate =>
  obtain ⟨hcreated, -⟩ := t₁.write_keeps h₁.sound (h₁.clear _) (elim_ok hcreate)
  have h₂ := h₁.keeps hcreated
  split
  · exact ⟨h₂, nofun⟩
  split
  · exact ⟨h₂, nofun⟩
  split
  · exact ⟨h₂, nofun⟩
  next t₃ hwrite =>
  obtain ⟨hwritten, i, e, hfresh, hfile⟩ := t₂.write_keeps h₂.sound (h₂.clear _) hwrite
  have h₃ := h₂.keeps hwritten
  split
  · next t₄ hrename =>
      have hslash := t₃.rename_slash hfresh hfile (elim_ok hrename)
      obtain ⟨d, s, hnames⟩ := h₃.place hslash
      obtain ⟨hmoved, j, r, hentry, hnew⟩ :=
        t₃.rename_keeps h₃.sound hfresh hfile hnames.resolve (elim_ok hrename)
      obtain ⟨hnames', hfollow⟩ := hnames.keeps h₃.sound hslash hmoved
      have hnolink : t₄.NoLinkAt d s := by
        intro j' r' target hr' hlink
        rw [hentry] at hr'
        cases hr'
        rw [hnew] at hlink
        cases hlink
      have hp := hfollow hnolink
      rw [FileTree.targetAt_some hentry] at hp
      refine ⟨⟨hmoved.sound, fun _ => ⟨d, s, hnames'⟩, ?_⟩, fun _ => FileTree.contentAt_file hp hnew⟩
      intro n d s hs
      exact hmoved.noLinkAt (h₃.clear n d s hs)
  · refine ⟨?_, nofun⟩
    dsimp only
    split
    · next hremove => exact h₃.keeps (t₃.removeFile_keeps h₃.sound hfresh hfile hremove)
    · exact h₃

def opened (p : Path) : Json.Decoded Scopes → Except Fault Database
  | .ok scopes => .ok ⟨p, scopes⟩
  | .error m => .error (.cannotParse m)

theorem openAt_content {bs : Bytes} (hexists : t.fileExists p = true) (hcontent : t.contentAt p = .ok bs) :
    openAt t p = (opened p (Json.Draft.ofText scopesOfDraft bs), t) := by
  rw [FileTree.contentAt] at hcontent
  obtain ⟨hd, hopen, hread⟩ := Json.Draft.bind_ok hcontent
  rw [openAt, if_pos hexists, hopen]
  dsimp only
  rw [hread]
  dsimp only
  cases Json.Draft.ofText scopesOfDraft bs <;> rfl

end LogTail.Database

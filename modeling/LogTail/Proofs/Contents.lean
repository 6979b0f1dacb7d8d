import Mathlib.Data.List.Infix
import LogTail.Proofs.Ledger

namespace LogTail

open Record

def held (n : Nat) : List FileTree → Bytes
  | [] => []
  | t :: _ => t.content n

/-- How many contents a file had before the one that it holds. -/
def generation (n : Nat) : List FileTree → Nat
  | [] => 0
  | t :: ts => if held n ts <+: t.content n then generation n ts else generation n ts + 1

/-- A content of a file: the file, and how many contents it had before. -/
structure Content where
  node : Nat
  generation : Nat
  deriving DecidableEq, Repr

def Content.present (n : Nat) (ts : List FileTree) : Content := ⟨n, LogTail.generation n ts⟩

/-- The bytes of a content as they stood at the last poll at which its file held it. -/
def Content.last (c : Content) : List FileTree → Bytes
  | [] => []
  | t :: ts => if c = .present c.node (t :: ts) then t.content c.node else c.last ts

/-- Where a content is read from: its end if it was there at the first poll, unless all files are read
from their beginning. -/
def Content.start (c : Content) (fromBeginning : Bool) (ts : List FileTree) : Nat :=
  if fromBeginning = true ∨ c.generation ≠ 0 then 0 else (held c.node ts.getLast?.toList).length

def Content.records (c : Content) (fromBeginning : Bool) (limit : Nat) (ts : List FileTree) :
    List Record :=
  Reader.recordsFrom (c.start fromBeginning ts)
    (pieces limit ((c.last ts).drop (c.start fromBeginning ts)))

def sightings (size : Nat) (nodes : List Nat) : List FileTree → List (Content × Fingerprint)
  | [] => []
  | t :: ts =>
    (nodes.filter fun n => !(t.content n).isEmpty).map
        (fun n => (.present n (t :: ts), .ofContent size (t.content n))) ++
      sightings size nodes ts

variable {n : Nat} {t : FileTree} {ts : List FileTree} {fromBeginning : Bool} {limit : Nat}

theorem generation_le (n : Nat) (t : FileTree) (ts : List FileTree) :
    generation n ts ≤ generation n (t :: ts) := by
  rw [generation]
  split
  · exact Nat.le_refl _
  · exact Nat.le_succ _

theorem present_cons_iff :
    Content.present n (t :: ts) = Content.present n ts ↔ held n ts <+: t.content n := by
  rw [Content.present, Content.present, Content.mk.injEq, generation]
  constructor
  · intro h
    by_contra hne
    rw [if_neg hne] at h
    omega
  · intro h
    rw [if_pos h]
    exact ⟨rfl, rfl⟩

theorem generation_lt (h : ¬ held n ts <+: t.content n) : generation n ts < generation n (t :: ts) := by
  rw [generation, if_neg h]
  exact Nat.lt_succ_self _

namespace Content

theorem last_present (n : Nat) (ts : List FileTree) : (present n ts).last ts = held n ts := by
  cases ts with
  | nil => rfl
  | cons t ts => exact if_pos rfl

theorem last_cons {c : Content} (h : c ≠ present c.node (t :: ts)) : c.last (t :: ts) = c.last ts :=
  if_neg h

theorem last_of_lt {c : Content} (h : LogTail.generation c.node ts < c.generation) : c.last ts = [] := by
  induction ts with
  | nil => rfl
  | cons t ts ih =>
      have hle := generation_le c.node t ts
      rw [last_cons, ih (by omega)]
      intro heq
      rw [heq] at h
      exact Nat.lt_irrefl _ h

theorem start_cons (c : Content) (hne : ts ≠ []) :
    c.start fromBeginning (t :: ts) = c.start fromBeginning ts := by
  rw [start, start, List.getLast?_cons_of_ne_nil hne]

theorem first_grows (h : LogTail.generation n ts = 0) : held n ts.getLast?.toList <+: held n ts := by
  induction ts with
  | nil => exact List.prefix_rfl
  | cons t ts ih =>
      by_cases hgrows : held n ts <+: t.content n
      · cases ts with
        | nil => exact List.prefix_rfl
        | cons t' ts =>
            rw [LogTail.generation, if_pos hgrows] at h
            rw [List.getLast?_cons_of_ne_nil (by simp)]
            exact (ih h).trans hgrows
      · rw [LogTail.generation, if_neg hgrows] at h
        cases h

theorem start_le (n : Nat) (fromBeginning : Bool) (ts : List FileTree) :
    (present n ts).start fromBeginning ts ≤ (held n ts).length := by
  unfold start
  split
  · exact Nat.zero_le _
  · next h => exact (first_grows (by simpa [present] using fun hg => h (.inr hg))).length_le

theorem records_past {c : Content} (h : c ≠ present c.node (t :: ts)) :
    c.records fromBeginning limit (t :: ts) = c.records fromBeginning limit ts := by
  rw [records, records, last_cons h]
  cases ts with
  | nil => simp only [last, List.drop_nil]; rfl
  | cons t' ts => rw [start_cons c (by simp)]

theorem records_of_last {c : Content} (h : c.last ts = []) :
    c.records fromBeginning limit ts = [] := by
  rw [records, h, List.drop_nil]
  rfl

theorem pieces_onward (hlimit : 0 < limit) {bs cs : Bytes} (h : bs <+: cs) (start : Nat) :
    pieces limit (cs.drop start) = pieces limit (bs.drop start) ++
      pieces limit (cs.drop (start + extent (pieces limit (bs.drop start)))) := by
  obtain ⟨more, hmore⟩ := pieces_prefix hlimit (h.drop start)
  have hrest := pieces_drop hlimit hmore.symm
  rw [List.drop_drop] at hrest
  rw [← hmore, hrest]

def reached (c : Content) (fromBeginning : Bool) (limit : Nat) (ts : List FileTree) : Nat :=
  c.start fromBeginning ts + extent (pieces limit ((c.last ts).drop (c.start fromBeginning ts)))

theorem reached_le (hlimit : 0 < limit) (n : Nat) (fromBeginning : Bool) (ts : List FileTree) :
    (present n ts).reached fromBeginning limit ts ≤ (held n ts).length := by
  have hstart := start_le n fromBeginning ts
  have hextent := extent_pieces_le hlimit ((held n ts).drop ((present n ts).start fromBeginning ts))
  rw [List.length_drop] at hextent
  rw [reached, last_present]
  omega

/-- Reading a file on from an offset comes to what there is of its present content since the poll
before. -/
structure ReadOn (n : Nat) (fromBeginning : Bool) (limit : Nat) (t : FileTree) (ts : List FileTree)
    (offset : Nat) : Prop where
  offset_le : offset ≤ (t.content n).length
  reached : (present n (t :: ts)).reached fromBeginning limit (t :: ts) =
    offset + extent (pieces limit ((t.content n).drop offset))
  records : (present n (t :: ts)).records fromBeginning limit (t :: ts) =
    (present n (t :: ts)).records fromBeginning limit ts ++
      Reader.recordsFrom offset (pieces limit ((t.content n).drop offset))

theorem readOn_reached (hlimit : 0 < limit) (hgrows : held n ts <+: t.content n) (hfilled : held n ts ≠ []) :
    ReadOn n fromBeginning limit t ts ((present n ts).reached fromBeginning limit ts) := by
  have hne : ts ≠ [] := by
    rintro rfl
    exact hfilled rfl
  have honward := pieces_onward hlimit hgrows ((present n ts).start fromBeginning ts)
  have hlast : (present n ts).last (t :: ts) = t.content n := by
    rw [← present_cons_iff.mpr hgrows]
    exact last_present n (t :: ts)
  refine ⟨Nat.le_trans (reached_le hlimit n fromBeginning ts) hgrows.length_le, ?_, ?_⟩
  · rw [present_cons_iff.mpr hgrows, reached, reached, start_cons _ hne, hlast, last_present, honward,
      extent_append, Nat.add_assoc]
  · rw [present_cons_iff.mpr hgrows, records, records, reached, start_cons _ hne, hlast, last_present,
      honward, Reader.recordsFrom_append]

section Anew

variable (hnew : held n ts <+: t.content n → held n ts = [])
include hnew

theorem last_anew : (present n (t :: ts)).last ts = [] := by
  by_cases hgrows : held n ts <+: t.content n
  · rw [present_cons_iff.mpr hgrows, last_present]
    exact hnew hgrows
  · exact last_of_lt (generation_lt hgrows)

theorem start_anew : (present n (t :: ts)).start fromBeginning (t :: ts) =
    if (fromBeginning || !ts.isEmpty) = true then 0 else (t.content n).length := by
  cases ts with
  | nil =>
      have hzero : (present n [t]).generation = 0 := by
        rw [present, LogTail.generation, held, if_pos List.nil_prefix]
        rfl
      simp only [start, hzero, ne_eq, not_true_eq_false, or_false, List.isEmpty_nil, Bool.not_true,
        Bool.or_false]
      rfl
  | cons t' ts =>
      rw [if_pos (by simp), start_cons _ (by simp)]
      by_cases hgrows : held n (t' :: ts) <+: t.content n
      · have hle := start_le n fromBeginning (t' :: ts)
        rw [hnew hgrows] at hle
        rw [present_cons_iff.mpr hgrows]
        exact Nat.le_zero.mp hle
      · have hpos := generation_lt hgrows
        exact if_pos (.inr (show LogTail.generation n (t :: t' :: ts) ≠ 0 by omega))

theorem readOn_start :
    ReadOn n fromBeginning limit t ts ((present n (t :: ts)).start fromBeginning (t :: ts)) := by
  have hlast := last_present n (t :: ts)
  refine ⟨start_le n fromBeginning (t :: ts), ?_, ?_⟩
  · rw [reached, hlast]
    rfl
  · rw [records_of_last (last_anew hnew), List.nil_append, records, hlast]
    rfl

end Anew

end Content

end LogTail

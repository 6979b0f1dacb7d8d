import LogTail.Proofs.InMemory
import LogTail.Proofs.Lines
import LogTail.Proofs.Lists
import LogTail.Proofs.Turns

namespace LogTail

open Record

namespace Outlet

def takeAll (o : Outlet) (bs : List Batch) : Outlet := bs.foldl take o

@[simp] theorem takeAll_nil (o : Outlet) : o.takeAll [] = o := rfl

@[simp] theorem takeAll_cons (o : Outlet) (b : Batch) (bs : List Batch) :
    o.takeAll (b :: bs) = (o.take b).takeAll bs := rfl

theorem batches_takeAll (o : Outlet) (bs : List Batch) : (o.takeAll bs).batches = o.batches ++ bs := by
  induction bs generalizing o with
  | nil => simp
  | cons b bs ih => rw [takeAll_cons, ih]; simp [take, batches]

/-- What passes where everything is accepted and the token is intact. -/
def Granted : Exchange → Prop
  | .offer _ told => told = .accept
  | .look shown | .joined shown => shown = false

theorem Willing.passes {o o' : Outlet} (h : o.Willing) {es : List Exchange} :
    o.Passes es o' ↔ (∀ e ∈ es, Granted e) ∧ o' = o.takeAll (es.filterMap Exchange.accepted?) := by
  induction es generalizing o with
  | nil => simp [Passes]
  | cons e es ih =>
      cases e with
      | look shown =>
          rw [Passes, look_intact h.intact, ih h, List.forall_mem_cons, Granted, eq_comm, and_assoc]
          rfl
      | joined shown =>
          rw [Passes, lookJoined_intact h.intact, ih h, List.forall_mem_cons, Granted, eq_comm, and_assoc]
          rfl
      | offer b told =>
          have hoffer : o.offer b = (.accept, o.take b) := by simp [Outlet.offer, h.accepting]
          have hthen := ih (h.took (Reader.took_take o h b))
          rw [Passes, hoffer, hthen, List.forall_mem_cons, Granted, eq_comm, and_assoc]
          refine and_congr_right fun (htold : told = .accept) => ?_
          have haccepted : (Exchange.offer b .accept).accepted? = some b := rfl
          rw [htold, List.filterMap_cons_some haccepted, takeAll_cons]

end Outlet

def Reader.share (t : FileTree) (r : Reader) : List Batch := (r.readIn t .willing).2.2.batches

/-- Tasks that take turns in any order, until all of them are over: with the batches that are accepted
goes the place of the task that handed them over, and what is left of the readers is in the order of
the tasks. -/
inductive Interleaves :
    List ReadTask → World → List (Nat × Batch) → List (Option Reader) → World → Prop
  | joined (left : List (Option Reader)) (w : World) : Interleaves (left.map .ended) w [] left w
  | turn {front back : List ReadTask} {task : ReadTask} {w w' : World} {bs : List Batch}
      {trace : List (Nat × Batch)} {left : List (Option Reader)}
      (hbatches : (task.turn w).2.outlet.batches = w.outlet.batches ++ bs)
      (rest : Interleaves (front ++ (task.turn w).1 :: back) (task.turn w).2 trace left w') :
      Interleaves (front ++ task :: back) w (bs.map (front.length, ·) ++ trace) left w'

namespace Interleaves

variable {tasks front back : List ReadTask} {task : ReadTask} {w w' : World}
  {trace : List (Nat × Batch)} {left : List (Option Reader)}

def partOf (i : Nat) (trace : List (Nat × Batch)) : List Batch :=
  (trace.filter fun x => x.1 = i).map Prod.snd

theorem partOf_turn (i j : Nat) (bs : List Batch) (trace : List (Nat × Batch)) :
    partOf i (bs.map (j, ·) ++ trace) = (if j = i then bs else []) ++ partOf i trace := by
  by_cases hij : j = i <;> simp [partOf, hij, List.filter_map, Function.comp_def]

/-- Tasks that take turns, seen as courses of their own. All that passes is what passes to one of them; `cut`
is what may pass besides where they are stopped. -/
structure Coursed (cut : List Exchange) (tasks : List ReadTask) (w : World) (trace : List (Nat × Batch))
    (w' : World) (cs : List Course) (es : List Exchange) : Prop where
  takes : List.Forall₂ (ReadTask.Takes w.tree) tasks cs
  parts (i : Nat) : partOf i trace = cs[i]?.elim [] Course.accepted
  passes : w.outlet.Passes es w'.outlet
  readers : ∀ e ∈ es, e.ByReader
  within : ∀ c ∈ cs, c.exchanges ⊆ es ++ cut
  accepted : es.filterMap Exchange.accepted? = trace.map Prod.snd
  tree : w'.tree = w.tree
  memory : w'.memory = w.memory

theorem Coursed.turn {cut : List Exchange} {cs : List Course} {es : List Exchange} {bs : List Batch}
    (hbatches : (task.turn w).2.outlet.batches = w.outlet.batches ++ bs)
    (h : Coursed cut (front ++ (task.turn w).1 :: back) (task.turn w).2 trace w' cs es) :
    ∃ cs' es', Coursed cut (front ++ task :: back) w (bs.map (front.length, ·) ++ trace) w' cs' es' ∧
      cs'.map Course.left = cs.map Course.left := by
  obtain ⟨es', o, task', hpasses, hreaders, hturn⟩ := task.turn_determined w
  obtain ⟨events, hturned⟩ := hturn w o rfl hpasses
  rw [hturned] at hbatches h
  obtain ⟨front', c, back', rfl, hfront, hc, hback⟩ := forall₂_split h.takes
  obtain rfl : bs = es'.filterMap Exchange.accepted? :=
    List.append_cancel_left (hbatches.symm.trans hpasses.took.batches_eq)
  have hrest : es ++ cut ⊆ es' ++ es ++ cut := by
    rw [List.append_assoc]
    exact List.subset_append_right _ _
  refine ⟨front' ++ ⟨es' ++ c.exchanges, c.left⟩ :: back', es' ++ es, ⟨?_, fun i => ?_, ?_, ?_, ?_, ?_, h.tree,
    h.memory⟩, by simp⟩
  · exact List.rel_append hfront (.cons (hc.turn hturn) hback)
  · rw [partOf_turn, h.parts, hfront.length_eq]
    by_cases hi : front'.length = i
    · subst hi
      simp [Course.accepted]
    · rw [if_neg hi, List.nil_append]
      simp only [List.getElem?_append, List.getElem?_cons]
      split
      · rfl
      · rw [if_neg (by omega), if_neg (by omega)]
  · exact Outlet.passes_append.mpr ⟨o, hpasses, h.passes⟩
  · exact List.forall_mem_append.mpr ⟨hreaders, h.readers⟩
  · intro c' hc'
    rcases List.mem_append.mp hc' with hc' | hc'
    · exact List.Subset.trans (h.within c' (List.mem_append_left _ hc')) hrest
    · rcases List.mem_cons.mp hc' with rfl | hc'
      · refine List.append_subset.mpr ⟨?_, List.Subset.trans (h.within c (by simp)) hrest⟩
        rw [List.append_assoc]
        exact List.subset_append_left _ _
      · exact List.Subset.trans (h.within c' (by simp [hc'])) hrest
  · rw [List.filterMap_append, h.accepted]
    simp [Function.comp_def]

theorem coursed (h : Interleaves tasks w trace left w') :
    ∃ cs es, Coursed [] tasks w trace w' cs es ∧ cs.map Course.left = left := by
  induction h with
  | joined left w =>
      refine ⟨left.map fun r => ⟨[], r⟩, [], ⟨?_, fun i => ?_, rfl, nofun, by simp, rfl, rfl, rfl⟩,
        by simp [Function.comp_def]⟩
      · rw [List.forall₂_map_left_iff, List.forall₂_map_right_iff, List.forall₂_same]
        exact fun r _ => ReadTask.takes_ended w.tree r
      · rw [List.getElem?_map]
        cases left[i]? <;> rfl
  | turn hbatches rest ih =>
      obtain ⟨cs, es, hcoursed, hleft⟩ := ih
      obtain ⟨cs', es', hcoursed', hleft'⟩ := hcoursed.turn hbatches
      exact ⟨cs', es', hcoursed', hleft'.trans hleft⟩

theorem turn_accepts (task : ReadTask) (w : World) :
    ∃ bs, (task.turn w).2.outlet.batches = w.outlet.batches ++ bs ∧ (task.turn w).2.tree = w.tree := by
  obtain ⟨es, o, task', hpasses, -, hturn⟩ := task.turn_determined w
  obtain ⟨events, hturned⟩ := hturn w o rfl hpasses
  rw [hturned]
  exact ⟨_, hpasses.took.batches_eq, rfl⟩

def play : List Nat → List ReadTask → World → List (Nat × Batch) × List ReadTask × World
  | [], tasks, w => ([], tasks, w)
  | i :: order, tasks, w =>
    match tasks[i]? with
    | none => play order tasks w
    | some task =>
      let (task, w') := task.turn w
      let (trace, end') := play order (tasks.set i task) w'
      ((w'.outlet.batches.drop w.outlet.batches.length).map (i, ·) ++ trace, end')

def left? : ReadTask → Option (Option Reader)
  | .ended r => some r
  | _ => none

theorem of_left {tasks : List ReadTask} {left : List (Option Reader)}
    (h : tasks.mapM left? = some left) : tasks = left.map .ended := by
  induction tasks generalizing left with
  | nil => simp_all
  | cons task tasks ih =>
      simp only [List.mapM_cons, Option.bind_eq_bind, Option.bind_eq_some_iff] at h
      obtain ⟨r, htask, rest, hrest, hleft⟩ := h
      obtain rfl : r :: rest = left := by simpa using hleft
      rw [List.map_cons, ← ih hrest]
      cases task with
      | waiting | reading => simp [left?] at htask
      | ended => simpa [left?] using htask

theorem of_play {order : List Nat} {played : List (Nat × Batch) × List ReadTask × World}
    (hplay : play order tasks w = played) (h : played.2.1.mapM left? = some left) :
    Interleaves tasks w played.1 left played.2.2 := by
  subst hplay
  induction order generalizing tasks w with
  | nil =>
      obtain rfl : tasks = left.map .ended := of_left h
      exact .joined left w
  | cons i order ih =>
      rw [play] at h ⊢
      cases htask : tasks[i]? with
      | none =>
          rw [htask] at h
          exact ih h
      | some task =>
          rw [htask] at h
          obtain ⟨bs, hbatches, -⟩ := turn_accepts task w
          obtain ⟨hi, rfl⟩ := List.getElem?_eq_some_iff.mp htask
          have hsplit : tasks = tasks.take i ++ tasks[i] :: tasks.drop (i + 1) := by simp
          have hset : tasks.set i (tasks[i].turn w).1 =
              tasks.take i ++ (tasks[i].turn w).1 :: tasks.drop (i + 1) := by
            rw [List.set_eq_take_append_cons_drop, if_pos hi]
          have hfront : (tasks.take i).length = i := List.length_take_of_le hi.le
          have hrest := ih h
          rw [hset] at hrest
          have hall := Interleaves.turn hbatches hrest
          rw [← hset, ← hsplit, hfront] at hall
          simpa [hbatches] using hall

theorem finished {n : Nat} (task : ReadTask) (w : World) (hn : task.turns w.tree ≤ n)
    (rest : Interleaves (front ++ .ended (task.finish w).1 :: back) (task.finish w).2 trace left w') :
    ∃ bs : List Batch,
      Interleaves (front ++ task :: back) w (bs.map (front.length, ·) ++ trace) left w' := by
  -- one task takes turns until it is over; `n` bounds those that it has left
  induction n generalizing task w with
  | zero =>
      rcases task.turns_turn w with ⟨r, rfl⟩ | hfewer
      · exact ⟨[], rest⟩
      · omega
  | succ n ih =>
      rcases task.turns_turn w with ⟨r, rfl⟩ | hfewer
      · exact ⟨[], rest⟩
      · obtain ⟨bs, hbatches, htree⟩ := turn_accepts task w
        rw [← ReadTask.turn_finish] at rest
        obtain ⟨cs, hthen⟩ := ih _ _ (by rw [htree]; omega) rest
        exact ⟨bs ++ cs, by simpa using Interleaves.turn hbatches hthen⟩

theorem drained (done : List (Option Reader)) (rs : List Reader) (w : World) :
    ∃ trace left, left.filterMap id = (Tracker.drain rs w).1 ∧
      Interleaves (done.map .ended ++ rs.map .waiting) w trace (done ++ left)
        (Tracker.drain rs w).2 := by
  induction rs generalizing done w with
  | nil => exact ⟨[], [], rfl, by simpa [Tracker.drain] using Interleaves.joined done w⟩
  | cons r rs ih =>
      obtain ⟨trace, left, hleft, hthen⟩ :=
        ih (done ++ [(Tracker.drainOne r w).1]) (Tracker.drainOne r w).2
      rw [List.map_append, List.append_assoc, List.append_assoc] at hthen
      obtain ⟨bs, hall⟩ := Interleaves.finished (.waiting r) w (Nat.le_refl _) hthen
      refine ⟨_, (Tracker.drainOne r w).1 :: left, ?_, hall⟩
      rw [Tracker.drain_cons, ← hleft]
      cases (Tracker.drainOne r w).1 <;> rfl

theorem granted {t : FileTree} {r : Reader} {c : Course} (h : ReadTask.Takes t (.waiting r) c)
    (hgranted : ∀ e ∈ c.exchanges, Outlet.Granted e) :
    c.left = some (r.settle t) ∧ c.accepted = r.share t := by
  let w : World := ⟨t, .empty, .willing, []⟩
  have hw : w.outlet.Willing := Outlet.willing_willing
  obtain ⟨events, hdrained⟩ := h w _ rfl (hw.passes.mpr ⟨hgranted, rfl⟩)
  rw [ReadTask.finish] at hdrained
  constructor
  · obtain ⟨bs, htook⟩ := Tracker.drainOne_took r w
    have hsettled := Tracker.drainOne_calm (hw.calm htook.outlet)
    rwa [hdrained] at hsettled
  · obtain ⟨events', hconclude⟩ := ReadTask.conclude_eq (r.readIn t .willing).1 (r.readIn t .willing).2.1
      (r.readIn t .willing).2.2 (ReadTask.notice r w)
    have hsame := hconclude.symm.trans ((ReadTask.drainOne_eq r w).symm.trans hdrained)
    have houtlet : (r.readIn t .willing).2.2 = Outlet.willing.takeAll c.accepted :=
      congrArg (fun out => out.2.outlet) hsame
    rw [Reader.share, houtlet, Outlet.batches_takeAll]
    rfl

theorem all_granted {t : FileTree} {rs : List Reader} {cs : List Course}
    (h : List.Forall₂ (fun r c => ReadTask.Takes t (.waiting r) c) rs cs)
    (hgranted : ∀ c ∈ cs, ∀ e ∈ c.exchanges, Outlet.Granted e) :
    cs.map Course.left = rs.map (fun r => some (r.settle t)) ∧ cs.map Course.accepted = rs.map (Reader.share t) := by
  induction h with
  | nil => exact ⟨rfl, rfl⟩
  | cons hone _ ih =>
      obtain ⟨hleft, haccepted⟩ := granted hone (hgranted _ List.mem_cons_self)
      obtain ⟨hlefts, haccepteds⟩ := ih fun c hc => hgranted c (List.mem_cons_of_mem _ hc)
      rw [List.map_cons, List.map_cons, List.map_cons, List.map_cons, hleft, haccepted, hlefts, haccepteds]
      exact ⟨rfl, rfl⟩

/-- In whatever order readers read into a willing outlet, each comes to the end of its file. -/
theorem settled {rs : List Reader} (h : Interleaves (rs.map .waiting) w trace left w')
    (hw : w.outlet.Willing) :
    left.filterMap id = rs.map (Reader.settle w.tree) ∧ w'.tree = w.tree ∧ w'.memory = w.memory ∧
      w'.outlet = w.outlet.takeAll (trace.map Prod.snd) ∧
      (∀ i, partOf i trace = rs[i]?.elim [] (Reader.share w.tree)) ∧
      ∃ events, Tracker.drain rs w = (rs.map (Reader.settle w.tree),
        { w with outlet := w.outlet.takeAll (rs.flatMap (Reader.share w.tree)), events }) := by
  obtain ⟨cs, es, hcoursed, hleft⟩ := h.coursed
  obtain ⟨hgranted, houtlet⟩ := hw.passes.mp hcoursed.passes
  have hall (c : Course) (hc : c ∈ cs) (e : Exchange) (he : e ∈ c.exchanges) : Outlet.Granted e :=
    hgranted e (by simpa using hcoursed.within c hc he)
  have htakes := List.forall₂_map_left_iff.mp hcoursed.takes
  obtain ⟨hlefts, hshares⟩ := all_granted htakes hall
  have hdrained := Tracker.drain_takes htakes w _ rfl (hw.passes.mpr ⟨fun e he => ?_, rfl⟩)
  have hsettled : cs.filterMap Course.left = rs.map (Reader.settle w.tree) := by
    have hid : cs.filterMap Course.left = (cs.map Course.left).filterMap id := by simp [List.filterMap_map]
    rw [hid, hlefts]
    simp [List.filterMap_map]
  have hshared : (cs.flatMap Course.exchanges).filterMap Exchange.accepted? =
      rs.flatMap (Reader.share w.tree) := by
    rw [List.filterMap_flatMap, List.flatMap_def, List.flatMap_def, ← hshares]
    rfl
  · rw [hsettled, hshared] at hdrained
    refine ⟨?_, hcoursed.tree, hcoursed.memory, by rw [houtlet, hcoursed.accepted], fun i => ?_, hdrained⟩
    · rw [← hleft, ← hsettled]
      simp [List.filterMap_map]
    · rw [hcoursed.parts]
      have hnth := congrArg (·[i]?) hshares
      simp only [List.getElem?_map] at hnth
      cases hc : cs[i]? <;> cases hr : rs[i]? <;> simp_all
  · obtain ⟨c, hc, hmem⟩ := List.mem_flatMap.mp he
    exact hall c hc e hmem

end Interleaves

namespace Tracker

theorem drain_willing (rs : List Reader) {w : World} (hw : w.outlet.Willing) :
    ∃ events, drain rs w = (rs.map (Reader.settle w.tree),
      { w with outlet := w.outlet.takeAll (rs.flatMap (Reader.share w.tree)), events }) := by
  obtain ⟨trace, left, -, h⟩ := Interleaves.drained [] rs w
  exact (h.settled hw).2.2.2.2.2

def Opening.gather (s : Opening) (drained readers : List Reader) : Tracker :=
  { s.tracker.remember (s.stayed ++ drained) with
    gathered := s.tracker.gathered ++ readers.map Reader.metadata, previous := readers }

theorem readBatch_gather (k : Tracker) (paths : List Path) (w : World) :
    let s := k.opened paths w
    let d := drain s.lost s.world
    let e := drain s.readers.reverse d.2
    k.readBatch paths w = (s.gather d.1 e.1).trim.save e.2 := by
  rw [readBatch_eq, collect_eq]
  rfl

/-- A batch of paths that is read at once: all lost files to their ends, and then all files of the
batch. -/
def ReadsAtOnce (k : Tracker) (paths : List Path) (w : World) (lost built : List (Nat × Batch))
    (out : Option Tracker × World) : Prop :=
  let s := k.opened paths w
  ∃ drained between readers behind,
    Interleaves (s.lost.map .waiting) s.world lost drained between ∧
    Interleaves (s.readers.reverse.map .waiting) between built readers behind ∧
    out = (s.gather (drained.filterMap id) (readers.filterMap id)).trim.save behind

theorem readBatch_at_once (k : Tracker) (paths : List Path) (w : World) :
    ∃ lost built, k.ReadsAtOnce paths w lost built (k.readBatch paths w) := by
  obtain ⟨lost, left, hleft, hlost⟩ := Interleaves.drained [] (k.opened paths w).lost (k.opened paths w).world
  obtain ⟨built, left', hleft', hbuilt⟩ := Interleaves.drained [] (k.opened paths w).readers.reverse
    (drain (k.opened paths w).lost (k.opened paths w).world).2
  exact ⟨lost, built, left, _, left', _, hlost, hbuilt, by
    rw [hleft, hleft']
    exact k.readBatch_gather paths w⟩

theorem save_congr (k : Tracker) (w w' : World) (htree : w'.tree = w.tree)
    (hmemory : w'.memory = w.memory) :
    (k.save w').1 = (k.save w).1 ∧ (k.save w').2.tree = (k.save w).2.tree ∧
      (k.save w').2.memory = (k.save w).2.memory := by
  cases hs : k.store with
  | none => simp [save_none hs, htree, hmemory]
  | some s =>
      unfold save
      rw [hs, htree, hmemory]
      dsimp only
      obtain ⟨ended, s', tree, memory⟩ := s.save w.tree w.memory k.gathered
      cases ended <;> exact ⟨rfl, rfl, rfl⟩

open Interleaves in
/-- Reading at once comes to the same as reading in order, which is one way to do it: the same tracker,
the same saved checkpoint, and of each reader the same batches, with all those of lost files before
all others. -/
theorem reads_at_once (k : Tracker) (paths : List Path) {w : World} (hw : w.outlet.Willing) :
    let s := k.opened paths w
    let inOrder := k.readBatch paths w
    (∃ lost built, k.ReadsAtOnce paths w lost built inOrder) ∧
    inOrder.2.outlet.batches = w.outlet.batches ++ s.lost.flatMap (Reader.share w.tree) ++
      s.readers.reverse.flatMap (Reader.share w.tree) ∧
    ∀ lost built out, k.ReadsAtOnce paths w lost built out →
      out.1 = inOrder.1 ∧ out.2.tree = inOrder.2.tree ∧ out.2.memory = inOrder.2.memory ∧
      out.2.outlet.batches = w.outlet.batches ++ lost.map Prod.snd ++ built.map Prod.snd ∧
      (∀ i, partOf i lost = s.lost[i]?.elim [] (Reader.share w.tree)) ∧
      ∀ i, partOf i built = s.readers.reverse[i]?.elim [] (Reader.share w.tree) := by
  intro s inOrder
  obtain ⟨-, hopened⟩ := k.opened_steady paths w
  have hready : s.world.outlet.Willing := hw.took hopened.outlet
  have hbefore : s.world.outlet.batches = w.outlet.batches :=
    hopened.outlet.batches_eq.trans (List.append_nil _)
  obtain ⟨events, hlostDrained⟩ := drain_willing s.lost hready
  obtain ⟨bs, htook⟩ := drain_took s.lost s.world
  have hbetween := hready.took htook.outlet
  obtain ⟨events', hbuiltDrained⟩ := drain_willing s.readers.reverse hbetween
  have hinOrder : inOrder = _ := k.readBatch_gather paths w
  rw [hlostDrained] at hbetween hbuiltDrained hinOrder
  rw [hbuiltDrained] at hinOrder
  refine ⟨k.readBatch_at_once paths w, ?_, ?_⟩
  · rw [hinOrder, Outlet.batches, save_outlet, ← Outlet.batches, Outlet.batches_takeAll,
      Outlet.batches_takeAll, hbefore, hopened.tree]
  · rintro lost built out ⟨drained, between, readers, behind, hlost, hbuilt, rfl⟩
    obtain ⟨hdrained, htree, hmemory, houtlet, hparts, -⟩ := hlost.settled hready
    have hready' : between.outlet.Willing := by
      obtain ⟨cs, es, hcoursed, -⟩ := hlost.coursed
      exact hready.took hcoursed.passes.took
    obtain ⟨hreaders, htree', hmemory', houtlet', hparts', -⟩ := hbuilt.settled hready'
    rw [htree] at hreaders hparts'
    rw [hinOrder, hdrained, hreaders]
    obtain ⟨hkept, hsaved, hsaved'⟩ := save_congr
      (s.gather (s.lost.map (Reader.settle s.world.tree))
        (s.readers.reverse.map (Reader.settle s.world.tree))).trim
      { s.world with outlet := _, events := events' } behind (htree'.trans htree) (hmemory'.trans hmemory)
    refine ⟨hkept, hsaved, hsaved', ?_, ?_, ?_⟩
    · rw [Outlet.batches, save_outlet, ← Outlet.batches, houtlet', Outlet.batches_takeAll, houtlet,
        Outlet.batches_takeAll, hbefore]
    · simpa only [hopened.tree] using hparts
    · simpa only [hopened.tree] using hparts'

open Session Interleaves in
theorem reads_at_once_mixed :
    let k : Tracker :=
      { ofParts ⟨["*.log"], [], none⟩ { followLogs.policy with emitBatchSize := 1 }
          followLogs.settings with
        previous := [⟨⟨"c.log"⟩, some ⟨5, none⟩, ⟨⟨[99]⟩, 0, []⟩, 64, 1⟩] }
    let w : World :=
      ⟨ofFiles [("a.log", true, [97, 10, 97, 10]), ("b.log", true, [98, 10, 98, 10]),
        ("c.log.1", true, [99, 10, 99, 10])], .empty, .willing, []⟩
    let paths : List Path := [⟨"a.log"⟩, ⟨"b.log"⟩]
    ∃ lost built out, k.ReadsAtOnce paths w lost built out ∧
      lost.map (fun x => (x.1, x.2.records.map Record.body)) = [(0, ["c"]), (0, ["c"])] ∧
      built.map (fun x => (x.1, x.2.records.map Record.body)) =
        [(0, ["a"]), (1, ["b"]), (0, ["a"]), (1, ["b"])] ∧
      out.1 = (k.readBatch paths w).1 ∧
      out.2.outlet.batches = lost.map Prod.snd ++ built.map Prod.snd ∧
      ((k.opened paths w).readers.map (Reader.share w.tree)).flatten.length = 4 ∧
      ∀ i, partOf i built =
        (k.opened paths w).readers.reverse[i]?.elim [] (Reader.share w.tree) := by
  intro k w paths
  have hw : w.outlet.Willing := Outlet.willing_willing
  let s := k.opened paths w
  let first := play [0, 0, 0, 0] (s.lost.map .waiting) s.world
  let second := play [0, 1, 0, 1, 0, 1, 0, 1] (s.readers.reverse.map .waiting) first.2.2
  have hplayed : (first.2.1.mapM left?).isSome = true ∧ (second.2.1.mapM left?).isSome = true ∧
      first.1.map (fun x => (x.1, x.2.records.map Record.body)) = [(0, ["c"]), (0, ["c"])] ∧
      second.1.map (fun x => (x.1, x.2.records.map Record.body)) =
        [(0, ["a"]), (1, ["b"]), (0, ["a"]), (1, ["b"])] ∧
      (s.readers.map (Reader.share w.tree)).flatten.length = 4 := by
    decide +kernel
  obtain ⟨hfirst, hsecond, hlost, hbuilt, hshares⟩ := hplayed
  obtain ⟨drained, hdrained⟩ := Option.isSome_iff_exists.mp hfirst
  obtain ⟨readers, hreaders⟩ := Option.isSome_iff_exists.mp hsecond
  have hnone : w.outlet.batches = [] := rfl
  let out := (s.gather (drained.filterMap id) (readers.filterMap id)).trim.save second.2.2
  have hread : k.ReadsAtOnce paths w first.1 second.1 out := by
    have hlostTurns := of_play (rfl : _ = first) hdrained
    have hbuiltTurns := of_play (rfl : _ = second) hreaders
    exact ⟨drained, first.2.2, readers, second.2.2, hlostTurns, hbuiltTurns, rfl⟩
  clear_value out second first w k
  obtain ⟨htracker, -, -, hbatches, -, hparts⟩ := (k.reads_at_once paths hw).2.2 _ _ _ hread
  rw [hnone, List.nil_append] at hbatches
  exact ⟨first.1, second.1, out, hread, hlost, hbuilt, htracker, hbatches, hshares, hparts⟩

end Tracker

end LogTail

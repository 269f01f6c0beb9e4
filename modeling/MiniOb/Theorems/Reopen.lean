import MiniOb.Index.Scanner
import MiniOb.Theorems.InsertRefines

/-! # Closing and opening an index

Nothing writes the file header between `create` and `open`, so an index comes back as it was exactly when its root is
still page 1. -/

namespace MiniOb
open Slots BplusTreeScanner SameIndex Op
variable {attrs : List IndexAttr} {alloc : Allocator} {f : IndexFile}

section
variable {α β : Type}

theorem SameIndex.refl (h : BplusTreeHandler) : SameIndex h h := ⟨rfl, rfl, rfl, rfl⟩

def Op.KeepsLayout (x : Op α) : Prop := ∀ h r h', x h = some (r, h') → SameIndex h h'

namespace Op.KeepsLayout

theorem of_ok {x : Op α} {a : BplusTreeHandler → α} {g : BplusTreeHandler → BplusTreeHandler}
    (hx : ∀ h, x h = some (.ok (a h), g h)) (hg : ∀ h, SameIndex h (g h)) : x.KeepsLayout := by
  intro h r h' e
  rw [hx] at e
  cases e
  exact hg h

theorem pure (a : α) : (Pure.pure a : Op α).KeepsLayout := of_ok (fun _ => rfl) refl

theorem fail (rc : RC) : (fail rc : Op α).KeepsLayout := by
  rintro h r h' ⟨⟩
  exact refl h

theorem diverge : (diverge : Op α).KeepsLayout := by rintro h r h' ⟨⟩

theorem bind {x : Op α} {f : α → Op β} (hx : x.KeepsLayout) (hf : ∀ a, (f a).KeepsLayout) :
    (x >>= f).KeepsLayout := by
  intro h r h' e
  rw [bind_apply] at e
  rcases hxh : x h with _ | ⟨_ | a, h₁⟩
  · rw [hxh] at e
    cases e
  · rw [hxh] at e
    cases e
    exact hx h _ h' hxh
  · rw [hxh] at e
    exact (hx h _ h₁ hxh).trans (hf a h₁ r h' e)

theorem ite {c : Prop} [Decidable c] {x y : Op α} (hx : x.KeepsLayout) (hy : y.KeepsLayout) :
    (if c then x else y).KeepsLayout := by
  split
  · exact hx
  · exact hy

theorem ignoreRC {x : Op Unit} (hx : x.KeepsLayout) : (ignoreRC x).KeepsLayout := by
  intro h r h' e
  obtain ⟨⟨r', h₁⟩, hx', e'⟩ := Option.map_eq_some_iff.mp e
  cases e'
  exact hx h r' h₁ hx'

theorem fileHeader : fileHeader.KeepsLayout := of_ok (fun _ => rfl) refl

theorem getThisPage (p : PageNum) : (MiniOb.getThisPage p).KeepsLayout := by
  intro h r h' e
  unfold MiniOb.getThisPage at e
  split at e
  · cases e
    exact refl h
  · cases e
    exact ⟨rfl, rfl, rfl, rfl⟩

theorem putNode (p : PageNum) (n : IndexNode) : (MiniOb.putNode p n).KeepsLayout :=
  of_ok (fun _ => rfl) fun _ => ⟨rfl, rfl, rfl, rfl⟩

theorem unpinPage (p : PageNum) : (MiniOb.unpinPage p).KeepsLayout := of_ok (fun _ => rfl) fun _ => ⟨rfl, rfl, rfl, rfl⟩

theorem allocatePage : MiniOb.allocatePage.KeepsLayout := of_ok allocatePage_apply fun _ => ⟨rfl, rfl, rfl, rfl⟩

theorem disposePage (p : PageNum) : (MiniOb.disposePage p).KeepsLayout := by
  intro h r h' e
  unfold MiniOb.disposePage at e
  split at e
  · cases e
    exact refl h
  · split at e
    · cases e
      exact ⟨rfl, rfl, rfl, rfl⟩
    · cases e
      exact refl h

theorem setRootPage (p : PageNum) : (MiniOb.setRootPage p).KeepsLayout :=
  of_ok (fun _ => rfl) fun _ => ⟨rfl, rfl, rfl, rfl⟩

theorem setParent (p parent : PageNum) : (MiniOb.setParent p parent).KeepsLayout :=
  bind (getThisPage p) fun _ => bind (putNode p _) fun _ => unpinPage p

theorem setParents (parent : PageNum) : ∀ ps : List PageNum, (MiniOb.setParents parent ps).KeepsLayout
  | [] => pure ()
  | p :: ps => bind (setParent p parent) fun _ => setParents parent ps

theorem findLeafLoop (pkey : Key) : ∀ (fuel : Nat) (page : PageNum) (node : IndexNode),
    (MiniOb.findLeafLoop pkey fuel page node).KeepsLayout
  | 0, _, _ => diverge
  | fuel + 1, page, node => by
    unfold MiniOb.findLeafLoop
    refine ite (bind (unpinPage page) fun _ => pure page) ?_
    exact bind fileHeader fun _ => bind (unpinPage page) fun _ => bind (getThisPage _) fun child =>
      findLeafLoop pkey fuel _ child

theorem findLeaf (fuel : Nat) (pkey : Key) : (MiniOb.findLeaf fuel pkey).KeepsLayout :=
  bind fileHeader fun _ => bind (getThisPage _) fun root => findLeafLoop pkey fuel _ root

theorem insertIntoLeaf (leafPage : PageNum) (pkey : Key) (rid : RID) :
    (MiniOb.insertIntoLeaf leafPage pkey rid).KeepsLayout :=
  bind fileHeader fun _ => bind (getThisPage leafPage) fun _ =>
    ite (fail _) (bind (putNode leafPage _) fun _ => unpinPage leafPage)

theorem insertIntoNewRoot (leftPage : PageNum) (pkey : Key) (rightPage : PageNum) :
    (MiniOb.insertIntoNewRoot leftPage pkey rightPage).KeepsLayout :=
  bind allocatePage fun r => bind (putNode r.1 _) fun _ => bind (unpinPage r.1) fun _ =>
    bind (setParent leftPage r.1) fun _ => bind (setParent rightPage r.1) fun _ => setRootPage r.1

theorem insertInternNode (parentPage leftPage rightPage : PageNum) (pkey : Key) :
    (MiniOb.insertInternNode parentPage leftPage rightPage pkey).KeepsLayout :=
  bind (getThisPage parentPage) fun _ => bind (putNode parentPage _) fun _ => unpinPage parentPage

theorem insertInternNodeAfterSplit {up : PageNum → PageNum → Key → PageNum → Op Unit}
    (hup : ∀ parent left key right, (up parent left key right).KeepsLayout)
    (interPage leftPage rightPage : PageNum) (pkey : Key) :
    (MiniOb.insertInternNodeAfterSplit up interPage leftPage rightPage pkey).KeepsLayout :=
  bind fileHeader fun _ => bind (getThisPage interPage) fun _ => bind allocatePage fun r =>
    bind (putNode interPage _) fun _ => bind (putNode r.1 _) fun _ => bind (setParents r.1 _) fun _ =>
      bind (unpinPage interPage) fun _ => bind (unpinPage r.1) fun _ => hup _ _ _ _

theorem insertIntoParent : ∀ (fuel : Nat) (parentPage leftPage : PageNum) (pkey : Key) (rightPage : PageNum),
    (MiniOb.insertIntoParent fuel parentPage leftPage pkey rightPage).KeepsLayout
  | 0, _, _, _, _ => diverge
  | fuel + 1, parentPage, leftPage, pkey, rightPage => by
    unfold MiniOb.insertIntoParent
    refine ite (insertIntoNewRoot leftPage pkey rightPage) ?_
    refine bind fileHeader fun _ => bind (getThisPage parentPage) fun _ => bind (unpinPage parentPage) fun _ => ?_
    refine ite (insertInternNode parentPage leftPage rightPage pkey) ?_
    exact insertInternNodeAfterSplit (insertIntoParent fuel) parentPage leftPage rightPage pkey

theorem insertIntoLeafAfterSplit (fuel : Nat) (leafPage : PageNum) (pkey : Key) (rid : RID) :
    (MiniOb.insertIntoLeafAfterSplit fuel leafPage pkey rid).KeepsLayout :=
  bind fileHeader fun _ => bind (getThisPage leafPage) fun _ => bind allocatePage fun r =>
    bind (putNode leafPage _) fun _ => bind (unpinPage leafPage) fun _ => bind (putNode r.1 _) fun _ =>
      bind (unpinPage r.1) fun _ => insertIntoParent fuel _ _ _ _

theorem insertEntry (fuel : Nat) (pkey : Bytes) (rid : RID) : (MiniOb.insertEntry fuel pkey rid).KeepsLayout := by
  intro h r h' e
  unfold MiniOb.insertEntry at e
  split at e
  · cases e
    exact refl h
  · refine bind fileHeader (fun _ => bind (findLeaf fuel _) fun leafPage => ?_) h r h' e
    exact bind fileHeader fun _ => bind (getThisPage leafPage) fun _ => bind (unpinPage leafPage) fun _ =>
      ite (insertIntoLeaf leafPage _ rid) (ignoreRC (insertIntoLeafAfterSplit fuel leafPage _ rid))

theorem deleteEntryFromNode (nodePage : PageNum) (pkey : Key) :
    (MiniOb.deleteEntryFromNode nodePage pkey).KeepsLayout :=
  bind fileHeader fun _ => bind (getThisPage nodePage) fun _ =>
    ite (fail _) (bind (putNode nodePage _) fun _ => unpinPage nodePage)

theorem redistributeNodes (leafPage rightPage : PageNum) :
    (MiniOb.redistributeNodes leafPage rightPage).KeepsLayout := by
  unfold MiniOb.redistributeNodes
  refine bind fileHeader fun _ => bind (getThisPage leafPage) fun left => bind (getThisPage rightPage) fun right =>
    bind (getThisPage left.parent) fun parent => ?_
  refine bind (putNode leafPage _) fun _ => bind (putNode rightPage _) fun _ => bind (putNode left.parent _) fun _ => ?_
  have unpins := bind (unpinPage leafPage) fun _ => bind (unpinPage rightPage) fun _ => unpinPage left.parent
  dsimp only
  split
  · exact unpins
  · exact bind (setParent _ _) fun _ => unpins

theorem collapseRoot (pageNum : PageNum) (node : IndexNode) : (MiniOb.collapseRoot pageNum node).KeepsLayout :=
  ite (bind (setParent _ _) fun _ => bind (setRootPage _) fun _ => bind (unpinPage pageNum) fun _ =>
    disposePage pageNum) (unpinPage pageNum)

theorem coalesceNode {up : PageNum → Key → Op Unit} (hup : ∀ page key, (up page key).KeepsLayout)
    (leafPage rightPage : PageNum) : (MiniOb.coalesceNode up leafPage rightPage).KeepsLayout := by
  unfold MiniOb.coalesceNode
  refine bind fileHeader fun _ => bind (getThisPage leafPage) fun left => bind (getThisPage rightPage) fun _ =>
    bind (getThisPage left.parent) fun parent => bind (putNode leafPage _) fun _ => ?_
  have rest := bind (unpinPage leafPage) fun _ => bind (unpinPage rightPage) fun _ =>
    bind (disposePage rightPage) fun _ => bind (unpinPage left.parent) fun _ =>
      hup left.parent (parent.keys (parent.sepPos leafPage))
  exact ite rest (bind (setParents leafPage _) fun _ => rest)

theorem rebalance {up : PageNum → Key → Op Unit} (hup : ∀ page key, (up page key).KeepsLayout) (pageNum : PageNum) :
    (MiniOb.rebalance up pageNum).KeepsLayout := by
  unfold MiniOb.rebalance
  refine bind fileHeader fun _ => bind (getThisPage pageNum) fun node => ?_
  refine ite (collapseRoot pageNum node) (ite (unpinPage pageNum) ?_)
  exact bind (getThisPage node.parent) fun _ => bind (getThisPage _) fun _ => bind (unpinPage pageNum) fun _ =>
    bind (unpinPage node.parent) fun _ => bind (unpinPage _) fun _ =>
      ite (redistributeNodes _ _) (coalesceNode hup _ _)

theorem deleteEntryInternal : ∀ (fuel : Nat) (pageNum : PageNum) (pkey : Key),
    (MiniOb.deleteEntryInternal fuel pageNum pkey).KeepsLayout
  | 0, _, _ => diverge
  | fuel + 1, pageNum, pkey => bind (deleteEntryFromNode pageNum pkey) fun _ =>
      rebalance (deleteEntryInternal fuel) pageNum

theorem deleteEntry (fuel : Nat) (data : Bytes) (rid : RID) : (MiniOb.deleteEntry fuel data rid).KeepsLayout :=
  bind fileHeader fun _ => bind (findLeaf fuel _) fun leafPage => deleteEntryInternal fuel leafPage _

end Op.KeepsLayout

def BplusTreeHandler.unpinned (h : BplusTreeHandler) : BplusTreeHandler := { h with pins := fun _ => 0 }

def outcome (r : Option (Except RC α × BplusTreeHandler)) : Option (Except RC α) := r.map Prod.fst

/-- Two runs that return the same and leave handlers that differ in their pins only. -/
inductive Alike : Option (Except RC α × BplusTreeHandler) → Option (Except RC α × BplusTreeHandler) → Prop
  | diverge : Alike none none
  | done (r : Except RC α) {h h' : BplusTreeHandler} : h.unpinned = h'.unpinned → Alike (some (r, h)) (some (r, h'))

theorem Alike.outcome_eq {r r' : Option (Except RC α × BplusTreeHandler)} (hr : Alike r r') :
    outcome r = outcome r' := by
  cases hr <;> rfl

def Op.PinFree (x : Op α) : Prop := ∀ h h', h.unpinned = h'.unpinned → Alike (x h) (x h')

namespace Op.PinFree

theorem header_eq {h h' : BplusTreeHandler} (hh : h.unpinned = h'.unpinned) : h.fileHeader = h'.fileHeader :=
  (BplusTreeHandler.mk.inj hh).2.1

theorem pages_eq {h h' : BplusTreeHandler} (hh : h.unpinned = h'.unpinned) : h.pages = h'.pages :=
  (BplusTreeHandler.mk.inj hh).2.2.1

theorem pure (a : α) : (Pure.pure a : Op α).PinFree := fun _ _ hh => .done _ hh

theorem fail (rc : RC) : (fail rc : Op α).PinFree := fun _ _ hh => .done _ hh

theorem diverge : (diverge : Op α).PinFree := fun _ _ _ => .diverge

theorem bind {x : Op α} {f : α → Op β} (hx : x.PinFree) (hf : ∀ a, (f a).PinFree) : (x >>= f).PinFree := by
  intro h h' hh
  have hr := hx h h' hh
  rw [bind_apply, bind_apply]
  generalize x h = r, x h' = r' at hr
  cases hr with
  | diverge => exact .diverge
  | done e hh₁ =>
    cases e with
    | error rc => exact .done _ hh₁
    | ok a => exact hf a _ _ hh₁

theorem ite {c : Prop} [Decidable c] {x y : Op α} (hx : x.PinFree) (hy : y.PinFree) :
    (if c then x else y).PinFree := by
  split
  · exact hx
  · exact hy

theorem fileHeader : fileHeader.PinFree := by
  intro h h' hh
  rw [fileHeader_apply, fileHeader_apply, header_eq hh]
  exact .done _ hh

theorem getThisPage (p : PageNum) : (MiniOb.getThisPage p).PinFree := by
  intro h h' hh
  have hpages : h'.pages.get p = h.pages.get p := by rw [pages_eq hh]
  unfold MiniOb.getThisPage
  rw [hpages]
  cases h.pages.get p with
  | none => exact .done _ hh
  | some n => exact .done _ hh

theorem unpinPage (p : PageNum) : (MiniOb.unpinPage p).PinFree := fun _ _ hh => .done _ hh

theorem findLeafLoop (pkey : Key) : ∀ (fuel : Nat) (page : PageNum) (node : IndexNode),
    (MiniOb.findLeafLoop pkey fuel page node).PinFree
  | 0, _, _ => diverge
  | fuel + 1, page, node => by
    unfold MiniOb.findLeafLoop
    refine ite (bind (unpinPage page) fun _ => pure page) ?_
    exact bind fileHeader fun _ => bind (unpinPage page) fun _ => bind (getThisPage _) fun child =>
      findLeafLoop pkey fuel _ child

theorem findLeaf (fuel : Nat) (pkey : Key) : (MiniOb.findLeaf fuel pkey).PinFree :=
  bind fileHeader fun _ => bind (getThisPage _) fun root => findLeafLoop pkey fuel _ root

theorem firstLeafLoop : ∀ (fuel : Nat) (page : PageNum) (node : IndexNode),
    (MiniOb.firstLeafLoop fuel page node).PinFree
  | 0, _, _ => diverge
  | fuel + 1, page, node => by
    unfold MiniOb.firstLeafLoop
    refine ite (bind (unpinPage page) fun _ => pure page) ?_
    exact bind (unpinPage page) fun _ => bind (getThisPage _) fun child => firstLeafLoop fuel _ child

theorem firstSatisfiedLoop (compOp : CompOp) (key : Bytes) : ∀ (fuel : Nat) (next : PageNum) (last : Option PageNum),
    (MiniOb.firstSatisfiedLoop compOp key fuel next last).PinFree
  | 0, _, _ => diverge
  | fuel + 1, next, last => by
    unfold MiniOb.firstSatisfiedLoop
    refine ite ?_ ?_
    · refine bind fileHeader fun _ => bind (getThisPage next) fun _ => ?_
      exact ite (bind (unpinPage next) fun _ => pure _) (firstSatisfiedLoop compOp key fuel _ _)
    · cases last with
      | none => exact fail _
      | some page => exact bind (unpinPage page) fun _ => fail _

theorem findFirstIndexSatisfied (fuel : Nat) (compOp : CompOp) (key : Bytes) :
    (MiniOb.findFirstIndexSatisfied fuel compOp key).PinFree := by
  have first : (getFirstLeafPage fuel).PinFree :=
    bind fileHeader fun _ => bind (getThisPage _) fun root => firstLeafLoop fuel _ root
  exact ite (bind first fun page => pure (page, 0))
    (bind (findLeaf fuel _) fun leafPage => firstSatisfiedLoop compOp key fuel leafPage none)

theorem openAt (fuel : Nat) (locals : Key → DateLocals) (compOp : CompOp) (bytes : Bytes) :
    (BplusTreeScanner.openAt fuel locals compOp bytes).PinFree := by
  intro h h' hh
  unfold BplusTreeScanner.openAt
  have hr := findFirstIndexSatisfied fuel compOp bytes h h' hh
  generalize MiniOb.findFirstIndexSatisfied fuel compOp bytes h = r,
    MiniOb.findFirstIndexSatisfied fuel compOp bytes h' = r' at hr
  cases hr with
  | diverge => exact .diverge
  | done e hh₁ =>
    rcases e with rc | ⟨page, i⟩
    · cases rc <;> exact .done _ hh₁
    · exact .done _ hh₁

theorem findIdxPages (s : BplusTreeScanner) : s.findIdxPages.PinFree := by
  unfold BplusTreeScanner.findIdxPages
  have load := ite (c := s.nextPageNum ≤ 0) (pure (Except.error RC.recordEof, { s with pinned := none, read := false }))
    (bind fileHeader fun header => bind (getThisPage s.nextPageNum) fun node =>
      pure (Except.ok (), { s with
        pinned := some s.nextPageNum
        read := false
        nextPageNum := node.next header.order }))
  cases s.pinned with
  | none => exact load
  | some page => exact bind (unpinPage page) fun _ => load

theorem nextEntry (s : BplusTreeScanner) : s.nextEntry.PinFree := by
  intro h h' hh
  unfold BplusTreeScanner.nextEntry
  rw [header_eq hh, pages_eq hh]
  rcases s.getNextIdxInMemory h'.fileHeader h'.pages with ⟨rc | rid, s'⟩
  · have hr := findIdxPages s' h h' hh
    cases rc
    case recordNoMoreIdxInMem =>
      dsimp only
      generalize s'.findIdxPages h = r, s'.findIdxPages h' = r' at hr
      cases hr with
      | diverge => exact .diverge
      | done e hh₁ =>
        rcases e with rc | ⟨rc | ⟨⟩, s''⟩
        · exact .done _ hh₁
        · exact .done _ hh₁
        · dsimp only
          rw [header_eq hh₁, pages_eq hh₁]
          exact .done _ hh₁
    all_goals exact .done _ hh
  · exact .done _ hh

theorem entries : ∀ (fuel : Nat) (s : BplusTreeScanner), (s.entries fuel).PinFree
  | 0, _ => diverge
  | fuel + 1, s => by
    unfold BplusTreeScanner.entries
    refine bind (nextEntry s) fun r => ?_
    rcases r with ⟨rc | rid, s'⟩
    · exact pure _
    · exact bind (entries fuel s') fun _ => pure _

theorem scan (fuel : Nat) (locals : Key → DateLocals) (compOp : CompOp) (value : Option Bytes) :
    (BplusTreeScanner.scan fuel locals compOp value).PinFree :=
  bind (bind fileHeader fun _ => openAt fuel locals compOp _) fun s => entries fuel s

end Op.PinFree

end

/-- The files that `create` and any sequence of `insert_entry` and `delete_entry` lead to, whatever the calls
    return. -/
inductive IndexFile.Reached (attrs : List IndexAttr) (alloc : Allocator) : IndexFile → Prop
  | created : Reached attrs alloc (IndexFile.created attrs alloc)
  | insert {f : IndexFile} {fuel : Nat} {pkey : Bytes} {rid : RID} {r : Except RC Unit} {h : BplusTreeHandler} :
    Reached attrs alloc f → insertEntry fuel pkey rid f.handler = some (r, h) →
      Reached attrs alloc { f with handler := h }
  | delete {f : IndexFile} {fuel : Nat} {data : Bytes} {rid : RID} {r : Except RC Unit} {h : BplusTreeHandler} :
    Reached attrs alloc f → deleteEntry fuel data rid f.handler = some (r, h) →
      Reached attrs alloc { f with handler := h }

namespace IndexFile

theorem Reached.layout (hf : Reached attrs alloc f) :
    SameIndex (create attrs alloc) f.handler ∧ f.stored = (create attrs alloc).fileHeader := by
  induction hf with
  | created => exact ⟨refl _, rfl⟩
  | insert _ hcall ih => exact ⟨ih.1.trans (KeepsLayout.insertEntry _ _ _ _ _ _ hcall), ih.2⟩
  | delete _ hcall ih => exact ⟨ih.1.trans (KeepsLayout.deleteEntry _ _ _ _ _ _ hcall), ih.2⟩

/-- `open` after `close` succeeds and gives back the index: the same header and nodes, and `find_leaf` and every scan
    find what they found before. -/
def Survives (f : IndexFile) : Prop :=
  ∃ f', f.close.reopen = (.ok (), f') ∧ f'.handler.fileHeader = f.handler.fileHeader ∧
    f'.handler.pages = f.handler.pages ∧
    (∀ fuel pkey, outcome (findLeaf fuel pkey f'.handler) = outcome (findLeaf fuel pkey f.handler)) ∧
    ∀ fuel locals compOp value,
      outcome (scan fuel locals compOp value f'.handler) = outcome (scan fuel locals compOp value f.handler)

def reopened (f : IndexFile) : IndexFile :=
  { f with handler := { f.handler with opened := true, pins := fun _ => 0, fileHeader := f.stored } }

theorem close_reopen_none (hp : f.handler.pages.get 1 = none) :
    f.close.reopen = (.error .bufferpoolInvalidPageNum, f.close) := by
  simp [reopen, close, hp]

theorem close_reopen_some {n : IndexNode} (hp : f.handler.pages.get 1 = some n) :
    f.close.reopen = (.ok (), f.reopened) := by
  simp [reopen, close, hp, reopened]

/-- After any insertions and deletions, the index survives `close` and `open` exactly when its root is page 1 and
    page 1 is still in the file. -/
theorem survives_iff {attrs : List IndexAttr} {alloc : Allocator} {f : IndexFile} (hf : Reached attrs alloc f) :
    f.Survives ↔ f.handler.fileHeader.rootPage = 1 ∧ f.handler.pages.get 1 ≠ none := by
  obtain ⟨⟨hopened, -, hattrs, horder⟩, hstored⟩ := hf.layout
  constructor
  · rintro ⟨f', he, hheader, -⟩
    cases hp : f.handler.pages.get 1 with
    | none =>
      rw [close_reopen_none hp] at he
      cases he
    | some n =>
      rw [close_reopen_some hp] at he
      cases he
      have hroot : f.handler.fileHeader = (create attrs alloc).fileHeader := hheader.symm.trans hstored
      exact ⟨by rw [hroot]; rfl, Option.some_ne_none n⟩
  · rintro ⟨hroot, hpage⟩
    obtain ⟨n, hp⟩ := Option.ne_none_iff_exists'.mp hpage
    have hheader : f.stored = f.handler.fileHeader := by
      rw [hstored]
      calc (create attrs alloc).fileHeader = ⟨f.handler.fileHeader.attrs, 1, f.handler.fileHeader.order⟩ := by
            rw [hattrs, horder]
            rfl
        _ = f.handler.fileHeader := by rw [← hroot]
    have same : f.reopened.handler.unpinned = f.handler.unpinned := by
      unfold reopened BplusTreeHandler.unpinned
      rw [hheader, hopened]
      rfl
    refine ⟨f.reopened, close_reopen_some hp, hheader, rfl, fun fuel pkey => ?_, fun fuel locals compOp value => ?_⟩
    · exact (PinFree.findLeaf fuel pkey _ _ same).outcome_eq
    · exact (PinFree.scan fuel locals compOp value _ _ same).outcome_eq

theorem Reached.insertAll {fuel : Nat} : ∀ {ps : List (Bytes × RID)}
    {f : IndexFile} {r : Except RC Unit} {h : BplusTreeHandler}, Reached attrs alloc f →
    MiniOb.insertAll fuel ps f.handler = some (r, h) → Reached attrs alloc { f with handler := h }
  | [], _, _, _, hf, e => by
    cases e
    exact hf
  | p :: ps, f, r, h, hf, e => by
    rw [MiniOb.insertAll, bind_apply] at e
    rcases hcall : insertEntry fuel p.1 p.2 f.handler with _ | ⟨_ | _, h₁⟩
    · rw [hcall] at e
      cases e
    · rw [hcall] at e
      cases e
      exact hf.insert hcall
    · rw [hcall] at e
      have hf₁ : Reached attrs alloc { f with handler := h₁ } := hf.insert hcall
      exact hf₁.insertAll e

def threeNumbers : Option (Except RC Unit × BplusTreeHandler) :=
  MiniOb.insertAll 3 [([7, 0, 0, 0], ⟨1, 0⟩), ([3, 0, 0, 0], ⟨1, 1⟩), ([9, 0, 0, 0], ⟨1, 2⟩)]
    (create [⟨.ints, 4⟩] allocateLast)

theorem survives_threeNumbers : ∃ f : IndexFile, Reached [⟨.ints, 4⟩] allocateLast f ∧ f.Survives ∧
    outcome (scan 5 (fun _ => (0, 0)) .lessThan (some [8, 0, 0, 0]) f.handler) =
      some (.ok ([⟨1, 1⟩, ⟨1, 0⟩], .recordEof)) := by
  have hrun : threeNumbers.any (fun r => r.2.fileHeader.rootPage = 1 ∧ (r.2.pages.get 1).isSome ∧
      outcome (scan 5 (fun _ => (0, 0)) .lessThan (some [8, 0, 0, 0]) r.2) =
        some (.ok ([⟨1, 1⟩, ⟨1, 0⟩], .recordEof))) = true := by decide +kernel
  rcases hcalls : threeNumbers with _ | ⟨r, h⟩
  · rw [hcalls] at hrun
    cases hrun
  · rw [hcalls] at hrun
    obtain ⟨hroot, hpage, hscan⟩ := of_decide_eq_true hrun
    have hf : Reached [⟨.ints, 4⟩] allocateLast ⟨h, (create [⟨.ints, 4⟩] allocateLast).fileHeader⟩ :=
      Reached.created.insertAll hcalls
    exact ⟨_, hf, (survives_iff hf).mpr ⟨hroot, Option.isSome_iff_ne_none.mp hpage⟩, hscan⟩

/-- An index on a column of 1000 characters, which has order three, with the entries `a`, `b` and `c`: the leaf has
    split and page 3 is the root. -/
def threeStrings : Option (Except RC Unit × BplusTreeHandler) :=
  MiniOb.insertAll 3 [([97], ⟨1, 0⟩), ([98], ⟨1, 1⟩), ([99], ⟨1, 2⟩)] (create [⟨.chars, 1000⟩] allocateLast)

/-- After `close` and `open` the root is page 1 again, and `find_leaf` leads to that leaf for `c`, which lies in
    page 2. -/
theorem reopen_loses_root : ∃ f f' : IndexFile, Reached [⟨.chars, 1000⟩] allocateLast f ∧
    f.close.reopen = (.ok (), f') ∧ f.handler.fileHeader.rootPage = 3 ∧ f'.handler.fileHeader.rootPage = 1 ∧
    outcome (findLeaf 3 ⟨[99], ⟨1, 2⟩⟩ f.handler) = some (.ok 2) ∧
    outcome (findLeaf 3 ⟨[99], ⟨1, 2⟩⟩ f'.handler) = some (.ok 1) ∧
    outcome (deleteEntry 3 [99] ⟨1, 2⟩ f.handler) = some (.ok ()) ∧
    outcome (deleteEntry 3 [99] ⟨1, 2⟩ f'.handler) = some (.error .recordInvalidKey) := by
  have hrun : threeStrings.any (fun r => (r.2.pages.get 1).isSome ∧ r.2.fileHeader.rootPage = 3 ∧
      outcome (findLeaf 3 ⟨[99], ⟨1, 2⟩⟩ r.2) = some (.ok 2) ∧
      outcome (findLeaf 3 ⟨[99], ⟨1, 2⟩⟩ (reopened ⟨r.2, (create [⟨.chars, 1000⟩] allocateLast).fileHeader⟩).handler) =
        some (.ok 1) ∧
      outcome (deleteEntry 3 [99] ⟨1, 2⟩ r.2) = some (.ok ()) ∧
      outcome (deleteEntry 3 [99] ⟨1, 2⟩
        (reopened ⟨r.2, (create [⟨.chars, 1000⟩] allocateLast).fileHeader⟩).handler) =
        some (.error .recordInvalidKey)) = true := by decide +kernel
  rcases hcalls : threeStrings with _ | ⟨r, h⟩
  · rw [hcalls] at hrun
    cases hrun
  · rw [hcalls] at hrun
    obtain ⟨hpage, hroot, hleaf, hleaf', hdel, hdel'⟩ := of_decide_eq_true hrun
    obtain ⟨n, hn⟩ := Option.isSome_iff_exists.mp hpage
    have hf : Reached [⟨.chars, 1000⟩] allocateLast ⟨h, (create [⟨.chars, 1000⟩] allocateLast).fileHeader⟩ :=
      Reached.created.insertAll hcalls
    exact ⟨_, _, hf, close_reopen_some hn, hroot, rfl, hleaf, hleaf', hdel, hdel'⟩

end IndexFile

end MiniOb

import Mathlib.Logic.Relation
import Naiad.Bridge.Mirror

/-!
# Naiad.Bridge.Follow

Passes of the bridge run one after another, each cut anywhere, over an upstream that publishes more
and more of its history.

* `Progress`: what of the published updates is applied, and what may be begun.
* `triple_syncOnce`: one pass.
* `sync_exactly_once`: **once a pass ends, the mirror is what the published updates say, applied
  once in order**.
-/

namespace Naiad
namespace Bridge

open Lib Netproto Server

/-- The source of a pass that sees the first `k` updates of the history. -/
structure Serves (h : History) (k : Nat) (src : UpdateSource) : Prop where
  metadata : ∀ since entries, src.metadata since = .ok entries →
    (entries.filter fun e => since ≤ e.updateIndex).Perm
      ((h.entries.take k).filter fun e => since ≤ e.updateIndex)
  content : ∀ hash f, src.fetchUpdate hash = .ok f → h.content hash = .ok f

/-- The updates among the first `k` from index `since` on. -/
def History.published (h : History) (since k : Nat) : List MetadataEntry :=
  (h.entries.take k).filter fun e => since ≤ e.updateIndex

/-- The next index once `done` is applied. -/
def cursorAfter (c : Nat) (done : List MetadataEntry) : Nat :=
  done.foldl (fun _ e => e.updateIndex + 1) c

theorem cursorAfter_append (c : Nat) (done : List MetadataEntry) (e : MetadataEntry) :
    cursorAfter c (done ++ [e]) = e.updateIndex + 1 := by
  simp [cursorAfter]

/-- Past the updates done, and not past those left. -/
theorem cursorAfter_spec {c : Nat} {done todo : List MetadataEntry}
    (hasc : (done ++ todo).Pairwise fun a b => a.updateIndex < b.updateIndex)
    (hc : ∀ e ∈ done ++ todo, c ≤ e.updateIndex) :
    c ≤ cursorAfter c done ∧ (∀ e ∈ done, e.updateIndex < cursorAfter c done) ∧
      ∀ e ∈ todo, cursorAfter c done ≤ e.updateIndex := by
  rcases List.eq_nil_or_concat done with rfl | ⟨done', last, rfl⟩
  · exact ⟨le_refl _, by simp, fun e he => hc e (by simpa using he)⟩
  · rw [List.concat_eq_append] at hasc hc ⊢
    rw [cursorAfter_append]
    have hlast : c ≤ last.updateIndex := hc last (by simp)
    rw [List.append_assoc, List.pairwise_append] at hasc
    obtain ⟨_, htail, hcross⟩ := hasc
    refine ⟨by omega, ?_, ?_⟩
    · intro e he
      rcases List.mem_append.1 he with he | he
      · have := hcross e he last (by simp)
        omega
      · obtain rfl : e = last := by simpa using he
        omega
    · intro e he
      have := (List.pairwise_cons.1 htail).1 e he
      omega

theorem orderBy_perm_eq {as bs : List MetadataEntry} (hp : as.Perm bs)
    (hasc : bs.Pairwise fun a b => a.updateIndex < b.updateIndex) :
    orderBy MetadataEntry.updateIndex as = bs := by
  have hsorted : (orderBy MetadataEntry.updateIndex as).Pairwise
      fun a b => a.updateIndex ≤ b.updateIndex := List.pairwise_insertionSort _ _
  have hperm : (orderBy MetadataEntry.updateIndex as).Perm bs :=
    (List.perm_insertionSort _ _).trans hp
  refine hperm.eq_of_pairwise ?_ hsorted (hasc.imp fun hlt => le_of_lt hlt)
  intro a b ha hb hab hba
  by_contra hne
  have hdistinct : bs.Pairwise fun a b => a.updateIndex ≠ b.updateIndex :=
    hasc.imp fun hlt => Nat.ne_of_lt hlt
  have hsymm : Std.Symm fun a b : MetadataEntry => a.updateIndex ≠ b.updateIndex :=
    ⟨fun _ _ hab => hab.symm⟩
  exact hdistinct.forall (hperm.mem_iff.1 ha) hb hne (le_antisymm hab hba)

theorem published_pairwise (h : History) (since k : Nat) :
    (h.published since k).Pairwise fun a b => a.updateIndex < b.updateIndex :=
  (h.ascending.sublist (List.take_sublist k h.entries)).filter _

theorem published_ge (h : History) (since k : Nat) :
    ∀ e ∈ h.published since k, since ≤ e.updateIndex := by
  intro e he
  exact of_decide_eq_true (List.mem_filter.1 he).2

/-- More is published at the end only. -/
theorem published_mono (h : History) (since : Nat) {k k' : Nat} (hk : k ≤ k') :
    ∃ more, h.published since k' = h.published since k ++ more := by
  refine ⟨((h.entries.drop k).take (k' - k)).filter fun e => since ≤ e.updateIndex, ?_⟩
  have hsplit : h.entries.take k' = h.entries.take k ++ (h.entries.drop k).take (k' - k) := by
    rw [← List.take_add, Nat.add_sub_cancel' hk]
  rw [History.published, hsplit, List.filter_append]
  rfl

/-- What a pass finds to do: the published updates that are not done. -/
theorem pendingEntries_eq {h : History} {k : Nat} {src : UpdateSource} (hsrc : Serves h k src)
    {c : Nat} {done todo entries : List MetadataEntry} (hpub : h.published c k = done ++ todo)
    (hmeta : src.metadata (cursorAfter c done) = .ok entries) :
    pendingEntries (cursorAfter c done) entries = todo := by
  have hasc := published_pairwise h c k
  have hge := published_ge h c k
  rw [hpub] at hasc hge
  obtain ⟨hcle, hdone, htodo⟩ := cursorAfter_spec hasc hge
  have hfilter : (h.entries.take k).filter (fun e => cursorAfter c done ≤ e.updateIndex) = todo := by
    have h1 : (h.published c k).filter (fun e => cursorAfter c done ≤ e.updateIndex) =
        (h.entries.take k).filter fun e => cursorAfter c done ≤ e.updateIndex := by
      rw [History.published, List.filter_filter]
      refine List.filter_congr ?_
      intro e _
      simp only [Bool.and_eq_left_iff_imp, decide_eq_true_eq]
      omega
    rw [← h1, hpub, List.filter_append]
    have hd : done.filter (fun e => cursorAfter c done ≤ e.updateIndex) = [] := by
      rw [List.filter_eq_nil_iff]
      intro e he
      have := hdone e he
      simpa using this
    have ht : todo.filter (fun e => cursorAfter c done ≤ e.updateIndex) = todo := by
      rw [List.filter_eq_self]
      intro e he
      simpa using htodo e he
    rw [hd, ht, List.nil_append]
  have hperm := hsrc.metadata _ _ hmeta
  rw [hfilter] at hperm
  exact orderBy_perm_eq hperm (List.pairwise_append.1 hasc).2.1

/-! ## One pass -/

section

variable (u : Unicode) (bridge : Signer) (h : History)

/-- A mirror with the updates before `todo` applied and, it may be, the first of them begun. -/
def Near (m x : Mirror) : List MetadataEntry → Prop
  | [] => x = m
  | entry :: _ => Partly u bridge (h.decoded entry) m x

/-- Of the updates after `start`, those of `done` are applied and the next may be begun. -/
structure Progress (start : Mirror) (c : Nat) (done todo : List MetadataEntry)
    (node : BridgeNode) : Prop where
  serving : Serving node.repo.toRepoStore
  cursor : node.state.nextUpdateIndex = cursorAfter c done
  applied : ∃ m, start.applyAll u bridge h done = .ok m ∧ Near u bridge h m node.mirror todo

end

section

variable {u : Unicode} {bridge : Signer} {h : History} {start : Mirror} {c : Nat}

theorem applyAll_append {m m' : Mirror} {done : List MetadataEntry} {entry : MetadataEntry}
    {x : Mirror} (hdone : m.applyAll u bridge h done = .ok m')
    (he : m'.applyEntry u bridge h entry = .ok x) :
    m.applyAll u bridge h (done ++ [entry]) = .ok x := by
  induction done generalizing m with
  | nil =>
    cases hdone
    simp [Mirror.applyAll, he]
  | cons e done ih =>
    simp only [List.cons_append, Mirror.applyAll] at hdone ⊢
    split at hdone
    · cases hdone
    · exact ih hdone

theorem Near.of_eq {m : Mirror} (todo : List MetadataEntry) : Near u bridge h m m todo := by
  cases todo with
  | nil => rfl
  | cons entry todo => exact .refl

theorem Near.more {m x : Mirror} {todo : List MetadataEntry} (hn : Near u bridge h m x todo)
    (more : List MetadataEntry) : Near u bridge h m x (todo ++ more) := by
  cases todo with
  | nil =>
    have hx : x = m := hn
    rw [hx]
    exact .of_eq _
  | cons entry todo => exact hn

theorem Progress.more {done todo : List MetadataEntry} {node : BridgeNode}
    (hp : Progress u bridge h start c done todo node) (more : List MetadataEntry) :
    Progress u bridge h start c done (todo ++ more) node := by
  obtain ⟨m, hm, hn⟩ := hp.applied
  exact ⟨hp.serving, hp.cursor, m, hm, hn.more more⟩

/-- The updates left are applied one after another; a cut leaves some of them applied. -/
theorem triple_applyEntries {src : UpdateSource} (ts : Int)
    (hsrc : ∀ hash f, src.fetchUpdate hash = .ok f → h.content hash = .ok f)
    (todo done : List MetadataEntry) :
    Prog.Triple (Progress u bridge h start c done todo) (applyEntries u bridge ts src todo)
      (fun _ => Progress u bridge h start c (done ++ todo) [])
      (fun node => ∃ d t, d ++ t = done ++ todo ∧ done <+: d ∧
        Progress u bridge h start c d t node) := by
  induction todo generalizing done with
  | nil =>
    refine .ret (fun node hn => ⟨done, [], rfl, List.prefix_rfl, hn⟩) fun node hn => ?_
    rw [List.append_nil]
    exact hn
  | cons entry todo ih =>
    let C (node : BridgeNode) : Prop := ∃ d t, d ++ t = done ++ entry :: todo ∧ done <+: d ∧
      Progress u bridge h start c d t node
    have hassoc : done ++ entry :: todo = done ++ [entry] ++ todo := by simp
    -- the entry once applied is progress
    have hnext : ∀ m node, start.applyAll u bridge h done = .ok m →
        Applied u bridge h entry m node →
        Progress u bridge h start c (done ++ [entry]) todo node := by
      intro m node hm hn
      refine ⟨hn.serving, ?_, node.mirror, applyAll_append hm hn.mirror, .of_eq _⟩
      rw [cursorAfter_append, hn.cursor]
    have hone : Prog.Triple (Progress u bridge h start c done (entry :: todo))
        (applyIndex u bridge ts src entry)
        (fun _ => Progress u bridge h start c (done ++ [entry]) todo) C := by
      constructor
      · intro node hn node' hcut
        obtain ⟨m, hm, hnear⟩ := hn.applied
        have hpend : Pending u bridge h entry m (cursorAfter c done) node :=
          ⟨hn.serving, hn.cursor, hnear⟩
        rcases (triple_applyIndex ts hsrc).crash node hpend node' hcut with hp | ha
        · exact ⟨done, entry :: todo, rfl, List.prefix_rfl,
            ⟨hp.serving, hp.cursor, m, hm, hp.partly⟩⟩
        · exact ⟨done ++ [entry], todo, hassoc.symm, List.prefix_append _ _, hnext m node' hm ha⟩
      · intro node applied node' hn hr
        obtain ⟨m, hm, hnear⟩ := hn.applied
        have hpend : Pending u bridge h entry m (cursorAfter c done) node :=
          ⟨hn.serving, hn.cursor, hnear⟩
        exact hnext m node' hm ((triple_applyIndex ts hsrc).post node applied node' hpend hr)
    refine hone.bind fun _ => ?_
    have hrest : Prog.Triple (Progress u bridge h start c (done ++ [entry]) todo)
        (applyEntries u bridge ts src todo)
        (fun _ => Progress u bridge h start c (done ++ entry :: todo) []) C := by
      refine (ih (done ++ [entry])).conseq (fun _ hn => hn) ?_ ?_
      · intro _ node hn
        rw [hassoc]
        exact hn
      · intro node hex
        obtain ⟨d, t, hdt, hpre, hn⟩ := hex
        exact ⟨d, t, by rw [hdt, hassoc], (List.prefix_append done [entry]).trans hpre, hn⟩
    refine hrest.bind fun _ => ?_
    exact .ret (fun node hn => ⟨done ++ entry :: todo, [], by simp, List.prefix_append _ _, hn⟩)
      fun node hn => hn

/-- **`triple_syncOnce`**: a pass that ends has applied every update it could see. -/
theorem triple_syncOnce {k : Nat} {src : UpdateSource} (ts : Int) (refreshed : Bool)
    (hsrc : Serves h k src) {done todo : List MetadataEntry}
    (hpub : h.published c k = done ++ todo) :
    Prog.Triple (Progress u bridge h start c done todo) (syncOnce u bridge ts src refreshed)
      (fun _ => Progress u bridge h start c (done ++ todo) [])
      (fun node => ∃ d t, d ++ t = done ++ todo ∧ done <+: d ∧
        Progress u bridge h start c d t node) := by
  let C (node : BridgeNode) : Prop := ∃ d t, d ++ t = done ++ todo ∧ done <+: d ∧
    Progress u bridge h start c d t node
  let P := Progress u bridge h start c done todo
  have hP : ∀ node, P node → C node := fun node hn => ⟨done, todo, rfl, List.prefix_rfl, hn⟩
  have hQ : ∀ node, Progress u bridge h start c (done ++ todo) [] node → C node :=
    fun node hn => ⟨done ++ todo, [], by simp, List.prefix_append _ _, hn⟩
  unfold syncOnce
  refine Prog.Triple.bind (Q := fun since node => P node ∧ since = cursorAfter c done)
    (.read hP ?_) fun since => ?_
  · intro node since hn hread
    cases hread
    exact ⟨hn, hn.cursor⟩
  by_cases hsince : since = cursorAfter c done
  rotate_left
  · exact ⟨fun node hn => absurd hn.2 hsince, fun node _ _ hn => absurd hn.2 hsince⟩
  subst hsince
  refine Prog.Triple.bind
    (Q := fun entries node => P node ∧ pendingEntries (cursorAfter c done) entries = todo)
    (.read (fun node hn => hP node hn.1) ?_) fun entries => ?_
  · intro node entries hn hread
    exact ⟨hn.1, pendingEntries_eq hsrc hpub hread⟩
  by_cases hentries : pendingEntries (cursorAfter c done) entries = todo
  rotate_left
  · exact ⟨fun node hn => absurd hn.2 hentries, fun node _ _ hn => absurd hn.2 hentries⟩
  rw [hentries]
  refine ((triple_applyEntries ts hsrc.content todo done).conseq (fun _ hn => hn.1)
    (fun _ _ hn => hn) (fun _ hn => hn)).bind fun applied => ?_
  refine Prog.Triple.bind (Q := fun _ => Progress u bridge h start c (done ++ todo) []) ?_
    fun _ => .ret hQ fun _ hn => hn
  unfold refreshCount
  split
  · refine .put hQ fun node hn => ?_
    have hp : Progress u bridge h start c (done ++ todo) []
        (node.setStore node.repo.refreshDistinctHashCount) := by
      obtain ⟨m, hm, hnear⟩ := hn.applied
      refine ⟨serving_refresh hn.serving, hn.cursor, m, hm, ?_⟩
      have hmirror : (node.setStore node.repo.refreshDistinctHashCount).mirror = node.mirror := by
        simp only [BridgeNode.mirror, BridgeNode.setStore, RepoStore.refreshDistinctHashCount]
        split <;> rfl
      rw [hmirror]
      exact hnear
    exact ⟨hQ _ hp, hp⟩
  · exact .ret hQ fun _ hn => hn

end

/-! ## Passes -/

section

variable (u : Unicode) (bridge : Signer) (h : History)

/-- A pass begun in one state of the databases and cut, or ended, in another; by then at least as
many updates are published as before. -/
def Pass (a b : BridgeNode × Nat) : Prop :=
  ∃ ts src refreshed, a.2 ≤ b.2 ∧ Serves h b.2 src ∧
    b.1 ∈ (syncOnce u bridge ts src refreshed).cuts a.1

/-- Where the databases stand after passes over the first `seen` updates: the cursor is past updates
applied whole, and only the next one may be begun; the cursor does not move back; a pass that ends
has applied every update once, in order; an index replayed changes no status it had settled. -/
structure Standing (start node : BridgeNode) (seen : Nat) : Prop where
  applied : ∃ done todo m, h.published start.state.nextUpdateIndex seen = done ++ todo ∧
    node.state.nextUpdateIndex = cursorAfter start.state.nextUpdateIndex done ∧
    start.mirror.applyAll u bridge h done = .ok m ∧ Near u bridge h m node.mirror todo
  forward : ∀ next, Pass u bridge h (node, seen) next →
    node.state.nextUpdateIndex ≤ next.1.state.nextUpdateIndex
  complete : ∀ ts src refreshed k applied node', seen ≤ k → Serves h k src →
    (syncOnce u bridge ts src refreshed).Returns node applied node' →
    start.mirror.applyAll u bridge h (h.published start.state.nextUpdateIndex k) =
        .ok node'.mirror ∧
      node'.state.nextUpdateIndex = cursorAfter start.state.nextUpdateIndex
        (h.published start.state.nextUpdateIndex k)
  replay : ∀ ts src entry done todo m m' applied node',
    (∀ hash f, src.fetchUpdate hash = .ok f → h.content hash = .ok f) →
    h.published start.state.nextUpdateIndex seen = done ++ entry :: todo →
    node.state.nextUpdateIndex = cursorAfter start.state.nextUpdateIndex done →
    start.mirror.applyAll u bridge h done = .ok m → m.applyEntry u bridge h entry = .ok m' →
    (applyIndex u bridge ts src entry).Returns node applied node' →
    ∀ k, node.mirror.mappings k = m'.mappings k → node'.mirror.mappings k = node.mirror.mappings k

end

section

variable {u : Unicode} {bridge : Signer} {h : History} {start : Mirror} {c : Nat}

theorem cursorAfter_mono {done x todo : List MetadataEntry}
    (hasc : (done ++ (x ++ todo)).Pairwise fun a b => a.updateIndex < b.updateIndex)
    (hc : ∀ e ∈ done ++ (x ++ todo), c ≤ e.updateIndex) :
    cursorAfter c done ≤ cursorAfter c (done ++ x) := by
  obtain ⟨_, _, htodo⟩ := cursorAfter_spec hasc hc
  rcases List.eq_nil_or_concat x with rfl | ⟨x', last, rfl⟩
  · rw [List.append_nil]
  · rw [List.concat_eq_append] at htodo ⊢
    rw [← List.append_assoc, cursorAfter_append]
    have := htodo last (by simp)
    omega

/-- Updates done are told apart by the cursor after them. -/
theorem done_unique {k : Nat} {done todo done' todo' : List MetadataEntry}
    (hd : h.published c k = done ++ todo) (hd' : h.published c k = done' ++ todo')
    (heq : cursorAfter c done = cursorAfter c done') : done = done' ∧ todo = todo' := by
  have hasc := published_pairwise h c k
  have hge := published_ge h c k
  have hspec := cursorAfter_spec (hd ▸ hasc) (hd ▸ hge)
  have hspec' := cursorAfter_spec (hd' ▸ hasc) (hd' ▸ hge)
  have hfilter : ∀ {d t : List MetadataEntry}, h.published c k = d ++ t →
      (∀ e ∈ d, e.updateIndex < cursorAfter c done) →
      (∀ e ∈ t, cursorAfter c done ≤ e.updateIndex) →
      (h.published c k).filter (fun e => e.updateIndex < cursorAfter c done) = d ∧
        (h.published c k).filter (fun e => cursorAfter c done ≤ e.updateIndex) = t := by
    intro d t hdt hlt hle
    rw [hdt, List.filter_append, List.filter_append]
    have h1 : d.filter (fun e => e.updateIndex < cursorAfter c done) = d :=
      List.filter_eq_self.2 fun e he => by simpa using hlt e he
    have h2 : t.filter (fun e => e.updateIndex < cursorAfter c done) = [] :=
      List.filter_eq_nil_iff.2 fun e he => by simpa using hle e he
    have h3 : d.filter (fun e => cursorAfter c done ≤ e.updateIndex) = [] :=
      List.filter_eq_nil_iff.2 fun e he => by simpa using hlt e he
    have h4 : t.filter (fun e => cursorAfter c done ≤ e.updateIndex) = t :=
      List.filter_eq_self.2 fun e he => by simpa using hle e he
    simp [h1, h2, h3, h4]
  have ha := hfilter hd hspec.2.1 hspec.2.2
  have hb := hfilter hd' (heq ▸ hspec'.2.1) (heq ▸ hspec'.2.2)
  exact ⟨ha.1.symm.trans hb.1, ha.2.symm.trans hb.2⟩

/-- `Progress` over the updates published so far. -/
def Reached (u : Unicode) (bridge : Signer) (h : History) (start : Mirror) (c : Nat)
    (a : BridgeNode × Nat) : Prop :=
  ∃ done todo, h.published c a.2 = done ++ todo ∧ Progress u bridge h start c done todo a.1

/-- More updates published leave the databases where they are. -/
theorem Reached.publish {node : BridgeNode} {seen k : Nat} (hk : seen ≤ k)
    (hr : Reached u bridge h start c (node, seen)) : Reached u bridge h start c (node, k) := by
  obtain ⟨done, todo, hpub, hp⟩ := hr
  obtain ⟨more, hmore⟩ := published_mono h c hk
  exact ⟨done, todo ++ more, by rw [hmore, hpub, List.append_assoc], hp.more more⟩

theorem Reached.pass {a b : BridgeNode × Nat} (hr : Reached u bridge h start c a)
    (hp : Pass u bridge h a b) :
    Reached u bridge h start c b ∧ a.1.state.nextUpdateIndex ≤ b.1.state.nextUpdateIndex := by
  obtain ⟨ts, src, refreshed, hk, hsrc, hcut⟩ := hp
  obtain ⟨done, todo, hpub, hprog⟩ := hr.publish hk
  obtain ⟨d, t, hdt, ⟨x, rfl⟩, hd⟩ :=
    (triple_syncOnce ts refreshed hsrc hpub).crash a.1 hprog b.1 hcut
  refine ⟨⟨done ++ x, t, hpub.trans hdt.symm, hd⟩, ?_⟩
  have hasc := published_pairwise h c b.2
  have hge := published_ge h c b.2
  have hsplit : h.published c b.2 = done ++ (x ++ t) := by
    rw [hpub, ← hdt, List.append_assoc]
  rw [hsplit] at hasc hge
  rw [hprog.cursor, hd.cursor]
  exact cursorAfter_mono hasc hge

theorem Reached.passes {a b : BridgeNode × Nat} (hr : Reached u bridge h start c a)
    (hruns : Relation.ReflTransGen (Pass u bridge h) a b) : Reached u bridge h start c b := by
  induction hruns with
  | refl => exact hr
  | tail _ hpass ih => exact (ih.pass hpass).1

end

/-- **`sync_exactly_once`**: wherever passes over a growing history were cut, the databases stand
as `Standing` says. -/
theorem sync_exactly_once (u : Unicode) (bridge : Signer) (h : History) {start node : BridgeNode}
    {seen : Nat} (hs : Serving start.repo.toRepoStore)
    (hruns : Relation.ReflTransGen (Pass u bridge h) (start, 0) (node, seen)) :
    Standing u bridge h start node seen := by
  let c := start.state.nextUpdateIndex
  have h0 : Reached u bridge h start.mirror c (start, 0) :=
    ⟨[], [], rfl, hs, rfl, start.mirror, rfl, rfl⟩
  have hreached : Reached u bridge h start.mirror c (node, seen) := h0.passes hruns
  constructor
  · obtain ⟨done, todo, hpub, hp⟩ := hreached
    obtain ⟨m, hm, hn⟩ := hp.applied
    exact ⟨done, todo, m, hpub, hp.cursor, hm, hn⟩
  · intro next hpass
    exact (hreached.pass hpass).2
  · intro ts src refreshed k applied node' hk hsrc hret
    obtain ⟨done, todo, hpub, hp⟩ := hreached.publish hk
    have hend := (triple_syncOnce ts refreshed hsrc hpub).post node applied node' hp hret
    obtain ⟨m, hm, hn⟩ := hend.applied
    have hx : node'.mirror = m := hn
    rw [hpub, hm, hx]
    exact ⟨rfl, hend.cursor⟩
  · intro ts src entry done todo m m' applied node' hsrc hpub hcur hm he hret k hk
    obtain ⟨done', todo', hpub', hp⟩ := hreached
    have hcur' : cursorAfter c done = cursorAfter c done' := hcur.symm.trans hp.cursor
    obtain ⟨rfl, rfl⟩ := done_unique hpub hpub' hcur'
    obtain ⟨m₀, hm₀, hnear⟩ := hp.applied
    have hm₁ : m₀ = m := by
      rw [hm] at hm₀
      cases hm₀
      rfl
    subst hm₁
    have hpend : Pending u bridge h entry m₀ (cursorAfter c done) node :=
      ⟨hp.serving, hp.cursor, hnear⟩
    have happlied := (triple_applyIndex ts hsrc).post node applied node' hpend hret
    have hm' : node'.mirror = m' := by
      have := happlied.mirror
      rw [he] at this
      cases this
      rfl
    rw [hm', hk]

/-- A hash defined, a tag defined, and the one mapped to the other, in one index. -/
def sampleHistory : History where
  entries := [⟨0, ["definitions", "content"]⟩]
  content := fun name =>
    if name = "definitions" then
      .ok (.definitions ⟨[(1, (Hash.fill 7).toHex)], [(2, "samus")]⟩)
    else .ok (.content ⟨[⟨2, [1], .add⟩], [], []⟩)
  ascending := List.pairwise_singleton _ _

def sampleSource : UpdateSource := ⟨fun _ => .ok sampleHistory.entries, sampleHistory.content⟩

def sampleSigner : Signer := ⟨"bridge", fun _ _ _ _ => []⟩

/-- The databases where a first pass over it is cut after its first write. -/
def sampleCut : BridgeNode :=
  ((syncOnce .plainText sampleSigner 0 sampleSource true) .empty).visited.headD .empty

/-- A pass cut between the definitions of its hashes and of its tags; the next pass ends, its one
mapping applied. -/
theorem sync_exactly_once_cut :
    Standing .plainText sampleSigner sampleHistory .empty sampleCut 1 ∧
      ((syncOnce .plainText sampleSigner 0 sampleSource true) sampleCut).result.toOption =
        some 1 := by
  have hserves : Serves sampleHistory 1 sampleSource :=
    ⟨fun _ _ h => by cases h; exact .refl _, fun _ _ h => h⟩
  have hcut : sampleCut ∈ (syncOnce .plainText sampleSigner 0 sampleSource true).cuts .empty := by
    unfold sampleCut Prog.cuts
    cases ((syncOnce .plainText sampleSigner 0 sampleSource true) .empty).visited with
    | nil => simp
    | cons x xs => simp
  refine ⟨?_, by decide +kernel⟩
  exact sync_exactly_once .plainText sampleSigner sampleHistory ⟨RepoStore.sound_empty, rfl⟩
    (.single ⟨0, sampleSource, true, Nat.zero_le 1, hserves, hcut⟩)

end Bridge
end Naiad

import JsxLoops.Proofs.Discovery
import JsxLoops.Proofs.Layout

/-!
Lowering is compositional. Children of a fragment know of each other only through the number that
comes next: a run over all of them is a run over the first ones, and from the number that it leaves
a run over the others. Runs that are chained in this way never give out a number twice.
-/

namespace JsxLoops.Loop

open JsxLoops.Tree Located

variable {adapter : Adapter} {start start₁ start₂ : Nat} {gs : List Premise}
  {ps qs rs : List Part} {σ σ' : Stage adapter} {t t' t₁' t₂' : Located}
  {a a' a₁ a₂ : Allocator} {loops loops₁ loops₂ : List (Lowered adapter)}

/-! ### Appended parts -/

theorem Lowers.of_append (h : Lowers adapter start gs (ps ++ qs) σ rs σ') :
    ∃ ps' qs' σ₁, rs = ps' ++ qs' ∧ Lowers adapter start gs ps σ ps' σ₁ ∧
      Lowers adapter start gs qs σ₁ qs' σ' := by
  induction ps generalizing σ rs with
  | nil => exact ⟨[], rs, σ, rfl, .nil, h⟩
  | cons p ps ih =>
    obtain ⟨p', rest, σ₁, rfl, hfirst, hrest⟩ := h.of_cons
    obtain ⟨ps', qs', σ₂, rfl, hps, hqs⟩ := ih hrest
    exact ⟨p' :: ps', qs', σ₂, rfl, .cons hfirst hps, hqs⟩

theorem LowersWhole.of_fragment {l : Loc} {ts : List Located}
    (h : LowersWhole adapter start a (.node l (.fragment ts)) t' a' loops) :
    ∃ ts' ledger, t' = .node l (.fragment ts') ∧
      Lowers adapter start [] (ts.map .child) ⟨a, [], none⟩ (ts'.map .child)
        ⟨a', loops, ledger⟩ := by
  generalize ht : Located.node l (.fragment ts) = t at h
  cases h with
  | @inside _ t' _ σ hc h =>
    subst ht
    obtain ⟨hloc, ⟨ts', hts'⟩, hparts⟩ := h.of_node
    refine ⟨ts', σ.ledger, ?_, ?_⟩
    · rw [← eta t', hloc, hts']
      rfl
    · rw [hts'] at hparts
      exact hparts
  | @root parens => cases parens <;> cases ht

/-- A run on a fragment of appended children, next to runs on a fragment of the first ones and, from
the number that it leaves, on a fragment of the others. -/
theorem LowersWhole.append {l l₁ l₂ : Loc} {ts us ts₁ us₂ : List Located}
    (h : LowersWhole adapter start a (.node l (.fragment (ts ++ us))) t' a' loops)
    (h₁ : LowersWhole adapter start₁ a (.node l₁ (.fragment ts₁)) t₁' a₁ loops₁)
    (h₂ : LowersWhole adapter start₂ a₁ (.node l₂ (.fragment us₂)) t₂' a₂ loops₂)
    (ht : ts.map erase = ts₁.map erase) (hu : us.map erase = us₂.map erase) :
    ∃ ts' us', t₁'.erase = .node (.fragment ts') ∧ t₂'.erase = .node (.fragment us') ∧
      t'.erase = .node (.fragment (ts' ++ us')) ∧ a' = a₂ ∧
      ∃ new new', loops = new ++ new' ∧ List.Forall₂ Lowered.Alike new loops₁ ∧
        List.Forall₂ Lowered.Alike new' loops₂ := by
  obtain ⟨cs, _, rfl, hrun⟩ := h.of_fragment
  obtain ⟨cs₁, _, rfl, hrun₁⟩ := h₁.of_fragment
  obtain ⟨cs₂, _, rfl, hrun₂⟩ := h₂.of_fragment
  rw [List.map_append] at hrun
  obtain ⟨ps', qs', σ₁, hcs, hfirst, hrest⟩ := hrun.of_append
  obtain ⟨ts', us', rfl, rfl, rfl⟩ := List.map_eq_append_iff.1 hcs
  obtain ⟨hts, hstep⟩ := hfirst.alike hrun₁ .nil (alike_children_iff.2 ht) ⟨rfl, .none⟩
  have hledger : σ₁.ledger = none := hfirst.continues.eq_none rfl
  obtain ⟨hus, hstep'⟩ := hrest.alike hrun₂ .nil (alike_children_iff.2 hu)
    ⟨hstep.stage.allocator, by rw [hledger]; exact .none⟩
  obtain ⟨new, new₁, hnew, hnew₁, hloops₁⟩ := hstep.loops
  obtain ⟨more, more₂, hmore, hmore₂, hloops₂⟩ := hstep'.loops
  simp only [List.nil_append] at hnew hnew₁ hmore hmore₂
  subst hnew₁ hmore₂
  refine ⟨cs₁.map erase, cs₂.map erase, erase_node _ _, erase_node _ _, ?_,
    hstep'.stage.allocator, new, more, by rw [hmore, hnew], hloops₁, hloops₂⟩
  rw [erase_node, Node.map, List.map_append, alike_children_iff.1 hts, alike_children_iff.1 hus]

/-! ### Numbers in order -/

theorem Allocator.getElem?_numbers (a : Allocator) {count i : Nat} (h : i < count) :
    (a.numbers count)[i]? = some (a.skip i).next := by
  simp [numbers, skip, h]

theorem Allocator.pairwise_numbers {count : Nat} (h : a.next.toNat + count ≤ 2 ^ 32) :
    (a.numbers count).Pairwise (· < ·) := by
  have hrange : (List.range count).Pairwise (· < ·) := List.pairwise_lt_range
  refine List.pairwise_map.2 (hrange.imp_of_mem fun {i j} hi hj hij => ?_)
  rw [List.mem_range] at hi hj
  have hi' := toNat_next_skip (a := a) (k := i) (by omega)
  have hj' := toNat_next_skip (a := a) (k := j) (by omega)
  rw [UInt32.lt_iff_toNat_lt]
  show (a.skip i).next.toNat < (a.skip j).next.toNat
  omega

theorem LowersWhole.ids (h : LowersWhole adapter start a t t' a' loops)
    (hcount : a.next.toNat + loops.length ≤ 2 ^ 32) :
    ((loops.map Lowered.site).mergeSort fun x y => x.id ≤ y.id).map Site.id =
      a.numbers loops.length := by
  have hsorted := h.sorted (by rw [UInt32.size]; omega)
  refine List.Perm.eq_of_pairwise (fun x y _ _ hxy hyx => ?_) (List.pairwise_map.2 hsorted)
    (Allocator.pairwise_numbers hcount) ?_
  · exact absurd hyx (UInt32.lt_asymm hxy)
  · refine ((List.mergeSort_perm _ _).map Site.id).trans ?_
    rw [List.map_map]
    exact h.numbers.2

theorem LowersWhole.tokens_eq (h : LowersWhole adapter start a t t' a' loops)
    {lp : Lowered adapter} (hlp : lp ∈ loops) : lp.tokens = .ofId lp.tokens.id := by
  obtain ⟨-, htokens, -⟩ := h.formed lp hlp
  rw [htokens]
  rfl

theorem lowerLoops_ids (adapter : Adapter) {s : Store} {root : Loc} (h : s.IsTree root)
    (a : Allocator) (hcount : a.next.toNat + (lowerLoops adapter root ⟨s, a, []⟩).1 ≤ 2 ^ 32) :
    let r := lowerLoops adapter root ⟨s, a, []⟩
    r.2.sites.map Site.id = a.numbers r.1 ∧ r.2.allocator = a.skip r.1 ∧
      ∀ site ∈ r.2.sites, (⟨site.id, site.indexName, site.keyToken⟩ : Tokens) = .ofId site.id := by
  intro r
  obtain ⟨t', loops, hlow, hlength, -, -, hsites⟩ := lowerLoops_isTree adapter h a
  rw [hlength] at hcount
  refine ⟨?_, ?_, fun site hsite => ?_⟩
  · rw [hsites, hlength]
    exact hlow.ids hcount
  · rw [hlength]
    exact hlow.numbers.1
  · rw [hsites, List.mem_mergeSort] at hsite
    obtain ⟨lp, hlp, rfl⟩ := List.mem_map.1 hsite
    exact hlow.tokens_eq hlp

/-! ### Chains of runs -/

/-- A tree that is to be lowered. -/
structure Job where
  adapter : Adapter
  store : Store
  root : Loc

def Job.run (job : Job) (a : Allocator) : Nat × Pass :=
  lowerLoops job.adapter job.root ⟨job.store, a, []⟩

/-- The sites of runs one after the other, each from the number that the one before leaves. -/
def chainedSites : List Job → Allocator → List Site
  | [], _ => []
  | job :: jobs, a => (job.run a).2.sites ++ chainedSites jobs (job.run a).2.allocator

theorem chainedSites_ids {jobs : List Job} (h : ∀ job ∈ jobs, job.store.IsTree job.root)
    (hcount : a.next.toNat + (chainedSites jobs a).length < 2 ^ 32) :
    (chainedSites jobs a).map Site.id = a.numbers (chainedSites jobs a).length ∧
      ∀ site ∈ chainedSites jobs a,
        (⟨site.id, site.indexName, site.keyToken⟩ : Tokens) = .ofId site.id := by
  induction jobs generalizing a with
  | nil => exact ⟨rfl, fun site hsite => by cases hsite⟩
  | cons job jobs ih =>
    have hlength : (job.run a).2.sites.length = (job.run a).1 := by
      obtain ⟨_, loops, -, hloops, -, -, hsites⟩ :=
        lowerLoops_isTree job.adapter (h job List.mem_cons_self) a
      rw [Job.run, hsites, hloops, List.length_mergeSort, List.length_map]
    rw [chainedSites, List.length_append, hlength] at hcount
    obtain ⟨hids, halloc, hnames⟩ :=
      lowerLoops_ids job.adapter (h job List.mem_cons_self) a (by rw [Job.run] at hcount; omega)
    rw [← Job.run] at hids halloc hnames
    have hnext : (job.run a).2.allocator.next.toNat = a.next.toNat + (job.run a).1 := by
      rw [halloc]
      exact Allocator.toNat_next_skip (by omega)
    obtain ⟨hids', hnames'⟩ := ih (a := (job.run a).2.allocator)
      (fun j hj => h j (List.mem_cons_of_mem _ hj)) (by omega)
    refine ⟨?_, fun site hsite => ?_⟩
    · rw [chainedSites, List.map_append, hids, hids', List.length_append, hlength,
        Allocator.numbers_add, halloc]
    · exact (List.mem_append.1 hsite).elim (hnames site) (hnames' site)

theorem labelled_injective (label : String) :
    Function.Injective fun id : UInt32 => label ++ toString id.toNat := by
  intro x y h
  have hdigits := congrArg String.toList (String.append_right_inj label |>.1 h)
  rw [Nat.toString_eq_repr, Nat.toString_eq_repr, Nat.toList_repr, Nat.toList_repr] at hdigits
  have hnat : x.toNat = y.toNat := by
    rw [← Nat.ofDigitChars_toDigits (b := 10) (n := x.toNat) (by omega) (by omega), hdigits,
      Nat.ofDigitChars_toDigits (by omega) (by omega)]
  exact UInt32.toNat_inj.1 hnat

/-! ### Appended children -/

/-- A tree that is a fragment of some children. -/
structure IsFragment (s : Store) (root : Loc) (children : List Subtree) : Prop where
  tree : s.IsTree root
  unfold : s.unfold root = some (.node (.fragment children))

theorem IsFragment.treeAt {s : Store} {root : Loc} {children : List Subtree}
    (h : IsFragment s root children) :
    ∃ ts, s.treeAt root = .node root (.fragment ts) ∧ ts.map erase = children := by
  have hunfold := (h.tree.owns_treeAt.shows le_rfl).unfold
  have hloc := s.loc_treeAt root
  rw [hloc, h.unfold, Option.some.injEq] at hunfold
  generalize s.treeAt root = t at hunfold hloc
  obtain ⟨l, n⟩ := t
  obtain rfl : l = root := hloc
  rw [erase_node, Subtree.node.injEq] at hunfold
  obtain ⟨ts, rfl, hts⟩ := Node.map_eq_fragment hunfold.symm
  exact ⟨ts, rfl, hts⟩

theorem observed_ids (s : Store) (sites : List Site) :
    (sites.map (Site.observe s)).map (fun x => x.report.id) = sites.map Site.id := by
  rw [List.map_map]
  rfl

theorem eq_of_observed_ids {xs ys : List Observation} {count : Nat} (h : xs.Perm ys)
    (hx : xs.map (fun x => x.report.id) = a.numbers count)
    (hy : ys.map (fun x => x.report.id) = a.numbers count)
    (hcount : a.next.toNat + count ≤ 2 ^ 32) : xs = ys := by
  have hrising := Allocator.pairwise_numbers hcount
  have hx := List.pairwise_map.1 (hx ▸ hrising)
  have hy := List.pairwise_map.1 (hy ▸ hrising)
  exact h.eq_of_pairwise (fun x y _ _ hxy hyx => absurd hyx (UInt32.lt_asymm hxy)) hx hy

/-- A run on a fragment of appended children puts together what the runs on either part give. -/
theorem lowerLoops_append (adapter : Adapter) (a : Allocator) {s s₁ s₂ : Store}
    {root root₁ root₂ : Loc} {ts us : List Subtree} (h : IsFragment s root (ts ++ us))
    (h₁ : IsFragment s₁ root₁ ts) (h₂ : IsFragment s₂ root₂ us) :
    let r := lowerLoops adapter root ⟨s, a, []⟩
    let r₁ := lowerLoops adapter root₁ ⟨s₁, a, []⟩
    let r₂ := lowerLoops adapter root₂ ⟨s₂, r₁.2.allocator, []⟩
    (∃ ts' us', r₁.2.store.unfold root₁ = some (.node (.fragment ts')) ∧
      r₂.2.store.unfold root₂ = some (.node (.fragment us')) ∧
      r.2.store.unfold root = some (.node (.fragment (ts' ++ us')))) ∧
    r.1 = r₁.1 + r₂.1 ∧ r.2.allocator = r₂.2.allocator ∧
    (a.next.toNat + r.1 < 2 ^ 32 →
      r.2.sites.map (Site.observe r.2.store) =
        r₁.2.sites.map (Site.observe r₁.2.store) ++ r₂.2.sites.map (Site.observe r₂.2.store)) := by
  intro r r₁ r₂
  obtain ⟨t', loops, hlow, hcount, hloc, hown, hsites⟩ := lowerLoops_isTree adapter h.tree a
  obtain ⟨t₁', loops₁, hlow₁, hcount₁, hloc₁, hown₁, hsites₁⟩ :=
    lowerLoops_isTree adapter h₁.tree a
  obtain ⟨t₂', loops₂, hlow₂, hcount₂, hloc₂, hown₂, hsites₂⟩ :=
    lowerLoops_isTree adapter h₂.tree r₁.2.allocator
  have hshows := hown.shows le_rfl
  have hshows₁ := hown₁.shows le_rfl
  have hshows₂ := hown₂.shows le_rfl
  obtain ⟨cs, hcs, hall⟩ := h.treeAt
  obtain ⟨ts₁, hts₁, rfl⟩ := h₁.treeAt
  obtain ⟨us₂, hus₂, rfl⟩ := h₂.treeAt
  obtain ⟨ts, us, rfl, hts, hus⟩ := List.map_eq_append_iff.1 hall
  have hrun := hlow
  have hrun₁ := hlow₁
  have hrun₂ := hlow₂
  rw [hcs] at hrun
  rw [hts₁] at hrun₁
  rw [hus₂] at hrun₂
  obtain ⟨ts', us', hts', hus', ht', halloc, new, new', hloops, hnew, hnew'⟩ :=
    hrun.append hrun₁ hrun₂ hts hus
  have hlength : loops.length = loops₁.length + loops₂.length := by
    rw [hloops, List.length_append, hnew.length_eq, hnew'.length_eq]
  have htotal : r.1 = r₁.1 + r₂.1 := by
    rw [show r.1 = _ from hcount, show r₁.1 = _ from hcount₁, show r₂.1 = _ from hcount₂, hlength]
  refine ⟨⟨ts', us', ?_, ?_, ?_⟩, htotal, halloc, fun hbound => ?_⟩
  · rw [← hts', ← hloc₁]
    exact hshows₁.unfold
  · rw [← hus', ← hloc₂]
    exact hshows₂.unfold
  · rw [← ht', ← hloc]
    exact hshows.unfold
  -- both lists hold the same, and their numbers are those that come next
  have hbound₁ : a.next.toNat + r₁.1 < 2 ^ 32 := by omega
  obtain ⟨hids, -, -⟩ := lowerLoops_ids adapter h.tree a hbound.le
  obtain ⟨hids₁, hnext, -⟩ := lowerLoops_ids adapter h₁.tree a hbound₁.le
  have hnext₁ : r₁.2.allocator.next.toNat = a.next.toNat + r₁.1 :=
    (congrArg (fun x => x.next.toNat) hnext).trans (Allocator.toNat_next_skip hbound₁)
  have hbound₂ : r₁.2.allocator.next.toNat + r₂.1 ≤ 2 ^ 32 := by omega
  obtain ⟨hids₂, -, -⟩ := lowerLoops_ids adapter h₂.tree r₁.2.allocator hbound₂
  refine eq_of_observed_ids ?_ ((observed_ids _ _).trans hids) ?_ hbound.le
  · have hsorted (s : Store) (loops : List (Lowered adapter)) :=
      (List.mergeSort_perm (loops.map Lowered.site) fun x y => x.id ≤ y.id).map (Site.observe s)
    have hperm := hsorted r.2.store loops
    have hperm₁ := hsorted r₁.2.store loops₁
    have hperm₂ := hsorted r₂.2.store loops₂
    rw [← hsites, hloops, List.map_append, List.map_append,
      hlow.observe hlow₁ hshows hshows₁ (hloops ▸ List.subset_append_left _ _) hnew,
      hlow.observe hlow₂ hshows hshows₂ (hloops ▸ List.subset_append_right _ _) hnew'] at hperm
    rw [← hsites₁] at hperm₁
    rw [← hsites₂] at hperm₂
    exact hperm.trans (hperm₁.append hperm₂).symm
  · rw [List.map_append, observed_ids, observed_ids, htotal, Allocator.numbers_add]
    exact congrArg₂ _ hids₁ (hids₂.trans (congrArg (fun x => x.numbers r₂.1) hnext))

/-- The sites of chained runs have the numbers that come next, in order, and no two of them share a
number or a name made from it. -/
theorem chainedSites_distinct {jobs : List Job} (h : ∀ job ∈ jobs, job.store.IsTree job.root)
    (hcount : a.next.toNat + (chainedSites jobs a).length < 2 ^ 32) :
    (chainedSites jobs a).Pairwise (fun x y => x.id < y.id) ∧
      ((chainedSites jobs a).map Site.indexName).Nodup ∧
      ((chainedSites jobs a).map Site.keyToken).Nodup ∧
      ∀ i site, (chainedSites jobs a)[i]? = some site → site.id.toNat = a.next.toNat + i ∧
        site.indexName = "index" ++ toString (a.next.toNat + i) ∧
        site.keyToken = "_key" ++ toString (a.next.toNat + i) := by
  obtain ⟨hids, hnames⟩ := chainedSites_ids h hcount
  generalize chainedSites jobs a = sites at hids hnames hcount
  have hrising := hids ▸ Allocator.pairwise_numbers hcount.le
  have hnodup : (sites.map Site.id).Nodup := hrising.imp fun hlt => UInt32.ne_of_lt hlt
  have hlabels (f : Site → String) (label : String)
      (hf : ∀ site ∈ sites, f site = label ++ toString site.id.toNat) : (sites.map f).Nodup := by
    rw [List.map_congr_left hf]
    have hmap := hnodup.map (labelled_injective label)
    rw [List.map_map] at hmap
    exact hmap
  refine ⟨List.pairwise_map.1 hrising, hlabels _ "index" fun site hsite => ?_,
    hlabels _ "_key" fun site hsite => ?_, fun i site hi => ?_⟩
  · exact congrArg Tokens.indexName (hnames site hsite)
  · exact congrArg Tokens.keyToken (hnames site hsite)
  · obtain ⟨hlt, -⟩ := List.getElem?_eq_some_iff.1 hi
    have hid : site.id = (a.skip i).next := by
      have hget := congrArg (fun ids => ids[i]?) hids
      simp only [List.getElem?_map, hi, Option.map_some, a.getElem?_numbers hlt] at hget
      exact Option.some.inj hget
    have hnat : site.id.toNat = a.next.toNat + i := by
      rw [hid]
      exact Allocator.toNat_next_skip (by omega)
    have htokens := hnames site (List.mem_of_getElem? hi)
    rw [← hnat]
    exact ⟨rfl, congrArg Tokens.indexName htokens, congrArg Tokens.keyToken htokens⟩

/-- Lowering is compositional. A run on a fragment of appended children puts together what a run on
the first ones gives and, from the number that it leaves, a run on the others. Along any chain of
runs, each from the number that the one before leaves, numbers, index names and key tokens rise and
never come twice. -/
theorem lowerLoops_composes (a : Allocator) :
    (∀ (adapter : Adapter) (s s₁ s₂ : Store) (root root₁ root₂ : Loc) (ts us : List Subtree),
      IsFragment s root (ts ++ us) → IsFragment s₁ root₁ ts → IsFragment s₂ root₂ us →
      let r := lowerLoops adapter root ⟨s, a, []⟩
      let r₁ := lowerLoops adapter root₁ ⟨s₁, a, []⟩
      let r₂ := lowerLoops adapter root₂ ⟨s₂, r₁.2.allocator, []⟩
      (∃ ts' us', r₁.2.store.unfold root₁ = some (.node (.fragment ts')) ∧
        r₂.2.store.unfold root₂ = some (.node (.fragment us')) ∧
        r.2.store.unfold root = some (.node (.fragment (ts' ++ us')))) ∧
      r.1 = r₁.1 + r₂.1 ∧ r.2.allocator = r₂.2.allocator ∧
      (a.next.toNat + r.1 < 2 ^ 32 →
        r.2.sites.map (Site.observe r.2.store) =
          r₁.2.sites.map (Site.observe r₁.2.store) ++
            r₂.2.sites.map (Site.observe r₂.2.store))) ∧
    ∀ jobs : List Job, (∀ job ∈ jobs, job.store.IsTree job.root) →
      a.next.toNat + (chainedSites jobs a).length < 2 ^ 32 →
      (chainedSites jobs a).Pairwise (fun x y => x.id < y.id) ∧
      ((chainedSites jobs a).map Site.indexName).Nodup ∧
      ((chainedSites jobs a).map Site.keyToken).Nodup ∧
      ∀ i site, (chainedSites jobs a)[i]? = some site → site.id.toNat = a.next.toNat + i ∧
        site.indexName = "index" ++ toString (a.next.toNat + i) ∧
        site.keyToken = "_key" ++ toString (a.next.toNat + i) := by
  refine ⟨?_, ?_⟩
  · intro adapter s s₁ s₂ root root₁ root₂ ts us h h₁ h₂
    exact lowerLoops_append adapter a h h₁ h₂
  · intro jobs hjobs hcount
    exact chainedSites_distinct hjobs hcount

/-- A child that is a loop over a list: it shows each item in an element. -/
def loopChild (list item tag : String) : Subtree :=
  .node (.container (.node (.call (.node (.member (.node (.name list)) "map" false))
    [.node (.lambda ⟨.arrow, false, false, [.plain item], .value (.node (.element
      ⟨tag, [], [.node (.container (.node (.name item)))], false⟩))⟩)])))

/-- `<>{xs.map((x) => <i>{x}</i>)}</>`. -/
def firstList : Store where
  nodes := #[.name "xs", .member ⟨0⟩ "map" false, .name "x", .container ⟨2⟩,
    .element ⟨"i", [], [⟨3⟩], false⟩, .lambda ⟨.arrow, false, false, [.plain "x"], .value ⟨4⟩⟩,
    .call ⟨1⟩ [⟨5⟩], .container ⟨6⟩, .fragment [⟨7⟩]]

/-- `<>-{ys.map((y) => <b>{y}</b>)}</>`. -/
def secondList : Store where
  nodes := #[.text "-", .name "ys", .member ⟨1⟩ "map" false, .name "y", .container ⟨3⟩,
    .element ⟨"b", [], [⟨4⟩], false⟩, .lambda ⟨.arrow, false, false, [.plain "y"], .value ⟨5⟩⟩,
    .call ⟨2⟩ [⟨6⟩], .container ⟨7⟩, .fragment [⟨0⟩, ⟨8⟩]]

/-- The children of both, one after the other. -/
def bothLists : Store where
  nodes := #[.name "xs", .member ⟨0⟩ "map" false, .name "x", .container ⟨2⟩,
    .element ⟨"i", [], [⟨3⟩], false⟩, .lambda ⟨.arrow, false, false, [.plain "x"], .value ⟨4⟩⟩,
    .call ⟨1⟩ [⟨5⟩], .container ⟨6⟩, .text "-", .name "ys", .member ⟨9⟩ "map" false, .name "y",
    .container ⟨11⟩, .element ⟨"b", [], [⟨12⟩], false⟩,
    .lambda ⟨.arrow, false, false, [.plain "y"], .value ⟨13⟩⟩, .call ⟨10⟩ [⟨14⟩],
    .container ⟨15⟩, .fragment [⟨7⟩, ⟨8⟩, ⟨16⟩]]

theorem firstList_isFragment : IsFragment firstList ⟨8⟩ [loopChild "xs" "x" "i"] :=
  ⟨Store.isTree_of_filled (by decide) (by decide) (by decide), by cbv⟩

theorem secondList_isFragment :
    IsFragment secondList ⟨9⟩ [.node (.text "-"), loopChild "ys" "y" "b"] :=
  ⟨Store.isTree_of_filled (by decide) (by decide) (by decide), by cbv⟩

theorem bothLists_isFragment : IsFragment bothLists ⟨17⟩
    ([loopChild "xs" "x" "i"] ++ [.node (.text "-"), loopChild "ys" "y" "b"]) :=
  ⟨Store.isTree_of_filled (by decide) (by decide) (by decide), by cbv⟩

theorem bothLists_run :
    let r := lowerLoops .wechat ⟨17⟩ ⟨bothLists, ⟨7⟩, []⟩
    r.1 = 2 ∧ (r.2.sites.map (Site.observe r.2.store)).map (fun o =>
      (o.report.id, o.report.itemName)) = [(7, "x"), (8, "y")] := by
  cbv

/-- The lists one after the other, on two platforms. -/
def listJobs : List Job := [⟨.wechat, firstList, ⟨8⟩⟩, ⟨.ali, secondList, ⟨9⟩⟩]

theorem listJobs_isTree : ∀ job ∈ listJobs, job.store.IsTree job.root := by
  simp [listJobs, firstList_isFragment.tree, secondList_isFragment.tree]

theorem firstList_run :
    let r := lowerLoops .wechat ⟨8⟩ ⟨firstList, ⟨7⟩, []⟩
    r.2.allocator = ⟨8⟩ ∧ r.2.sites.length = 1 := by
  cbv

theorem secondList_length : (lowerLoops .ali ⟨9⟩ ⟨secondList, ⟨8⟩, []⟩).2.sites.length = 1 := by
  cbv

theorem listJobs_length : (chainedSites listJobs ⟨7⟩).length = 2 := by
  simp only [listJobs, chainedSites, Job.run, List.length_append, firstList_run.1, firstList_run.2,
    secondList_length, List.length_nil]

theorem bothLists_composed :
    let r := lowerLoops .wechat ⟨17⟩ ⟨bothLists, ⟨7⟩, []⟩
    let r₁ := lowerLoops .wechat ⟨8⟩ ⟨firstList, ⟨7⟩, []⟩
    let r₂ := lowerLoops .wechat ⟨9⟩ ⟨secondList, r₁.2.allocator, []⟩
    IsFragment bothLists ⟨17⟩
        ([loopChild "xs" "x" "i"] ++ [.node (.text "-"), loopChild "ys" "y" "b"]) ∧
      IsFragment firstList ⟨8⟩ [loopChild "xs" "x" "i"] ∧
      IsFragment secondList ⟨9⟩ [.node (.text "-"), loopChild "ys" "y" "b"] ∧
      r.1 = 2 ∧
      (r₁.2.sites.map (Site.observe r₁.2.store) ++ r₂.2.sites.map (Site.observe r₂.2.store)).map
        (fun o => (o.report.id, o.report.itemName)) = [(7, "x"), (8, "y")] ∧
      (∀ job ∈ listJobs, job.store.IsTree job.root) ∧ (chainedSites listJobs ⟨7⟩).length = 2 ∧
      ∀ i site, (chainedSites listJobs ⟨7⟩)[i]? = some site → site.id.toNat = 7 + i ∧
        site.keyToken = "_key" ++ toString (7 + i) := by
  have hrun := bothLists_run
  obtain ⟨happend, hchain⟩ := lowerLoops_composes ⟨7⟩
  have hobserved := happend .wechat bothLists firstList secondList ⟨17⟩ ⟨8⟩ ⟨9⟩ _ _
    bothLists_isFragment firstList_isFragment secondList_isFragment
  have hnumbers := hchain listJobs listJobs_isTree (by rw [listJobs_length]; decide)
  have hlength := listJobs_length
  -- what the runs are is known by now
  generalize chainedSites listJobs ⟨7⟩ = chained at hnumbers hlength ⊢
  generalize lowerLoops .wechat ⟨17⟩ ⟨bothLists, ⟨7⟩, []⟩ = r at hrun hobserved ⊢
  generalize lowerLoops .wechat ⟨8⟩ ⟨firstList, ⟨7⟩, []⟩ = r₁ at hobserved ⊢
  generalize lowerLoops .wechat ⟨9⟩ ⟨secondList, r₁.2.allocator, []⟩ = r₂ at hobserved ⊢
  obtain ⟨hcount, hsites⟩ := hrun
  obtain ⟨-, -, -, hobserved⟩ := hobserved
  rw [hobserved (by rw [hcount]; decide)] at hsites
  obtain ⟨-, -, -, hnumbers⟩ := hnumbers
  exact ⟨bothLists_isFragment, firstList_isFragment, secondList_isFragment, hcount, hsites,
    listJobs_isTree, hlength, fun i site h => ⟨(hnumbers i site h).1, (hnumbers i site h).2.2⟩⟩

end JsxLoops.Loop

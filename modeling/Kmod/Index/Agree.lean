import Kmod.Index.Wild
import Kmod.Libkmod.Indexes

/-!
# Do the two readers agree?

A library context answers from the mapping of an index if it is loaded, and from
the stream if not, so the two readers should give the same answers. They see the
same tree, but the stream reader inserts the values of each node by priority once
more, and inserting puts a value in front of its equals: values of equal priority
come out in the opposite order.

So the readers agree on a file exactly if, for every key and priority, the values
that were entered read the same from both ends (`readersAgree_iff`).
-/

namespace Kmod.Index

open Kmod.Lists Bytes Sorting

/-! ## Dumps -/

/-- The bytes a dump writes for a tree: first the values of a node, then its children. -/
def dumpOf (g : List IndexValue → List IndexValue) : IndexNode → CStr → List UInt8
  | .null, _ => []
  | .node d children, buf =>
    (g d.values).flatMap (dumpLine (buf ++ d.pfx)) ++
      (charsBetween d.first d.last).flatMap (fun c => dumpOf g (children c) (buf ++ d.pfx ++ [c]))

/-- There is nothing to write for a tree without entries. -/
theorem dumpOf_empty {g : List IndexValue → List IndexValue} (hg : g [] = []) {d : NodeData}
    {children : UInt8 → IndexNode} (hvalues : d.values = []) (hnull : ∀ c, children c = .null)
    (buf : CStr) : dumpOf g (.node d children) buf = [] := by
  unfold dumpOf
  rw [hvalues, hg, List.flatMap_nil, List.nil_append, List.flatMap_eq_nil_iff]
  intro c _
  rw [hnull c, dumpOf]

section Reader

variable {N : Type} {r : Reader N} {g : List IndexValue → List IndexValue}
  {R : N → NodeData → (UInt8 → IndexNode) → Prop} (hR : Represents r g R)
include hR

theorem dumpNode_eq :
    ∀ {fuel : Nat} {x : N} {d : NodeData} {children : UInt8 → IndexNode} {buf : CStr}
      {out : List UInt8}, R x d children → (IndexNode.node d children).nodes + 128 ≤ fuel →
      dumpNode r fuel x buf out = .ok (out ++ dumpOf g (.node d children) buf) := by
  intro fuel
  induction fuel with
  | zero => intro x d children buf out _ hfuel; omega
  | succ fuel ih =>
    intro x d children buf out hx hfuel
    have hok := hR.ok hx
    have hbody : ∀ c, d.first ≤ c → c ≤ d.last → ∀ out,
        r.withChild x c out (fun child => dumpNode r fuel child (buf ++ d.pfx ++ [c]) out)
          = .ok (out ++ dumpOf g (children c) (buf ++ d.pfx ++ [c])) := by
      intro c _ _ out
      cases hc : children c with
      | null => rw [hR.withChild_null hx hc, dumpOf, List.append_nil]
      | node d' children' =>
        obtain ⟨y, hRy, hy⟩ := hR.withChild_node hx hc out
        have hnodes := nodes_child hok hc
        rw [hy, ih hRy (by omega)]
    have hlast : d.last.toNat < 128 := UInt8.lt_iff_toNat_lt.mp hok.last_lt
    have hnodes := nodes_pos d children
    have hloop := forChars_eq hok.last_lt fuel d.first
      (out ++ (g d.values).flatMap (dumpLine (buf ++ d.pfx))) (by omega) hbody
    have hfold : ∀ (f : UInt8 → List UInt8) (cs : List UInt8) (out : List UInt8),
        cs.foldl (fun out c => out ++ f c) out = out ++ cs.flatMap f := by
      intro f cs
      induction cs with
      | nil => simp
      | cons c cs ihc => intro out; rw [List.foldl_cons, ihc, List.flatMap_cons, List.append_assoc]
    unfold dumpNode
    rw [hR.values hx, hR.pfx hx, hR.first hx, hR.last hx, dumpOf]
    show forChars _ _ _ _ _ = _
    rw [hloop, hfold, List.append_assoc]

theorem dump_eq {root : Option N} {d : NodeData} {children : UInt8 → IndexNode}
    (h : ShowsRoot R root d children) {fuel : Nat}
    (hfuel : (IndexNode.node d children).nodes + 128 ≤ fuel) (aliasPrefix : Bool) :
    dump r fuel root aliasPrefix
      = .ok (dumpOf g (.node d children) (if aliasPrefix then cstr "alias " else [])) := by
  cases root with
  | none =>
    obtain ⟨hv, hp, hnull⟩ := h
    rw [dumpOf_empty hR.nil hv hnull]
    rfl
  | some x => rw [dump, dumpNode_eq hR h hfuel, List.nil_append]

/-- A reader that changes no list of the tree shows the tree as it is. -/
theorem Represents.of_fixed :
    Represents r id (fun x d children => R x d children ∧
      ∀ q, g ((IndexNode.node d children).lookup q) = (IndexNode.node d children).lookup q) where
  nil := rfl
  ok := fun h => hR.ok h.1
  pfx := fun h => hR.pfx h.1
  first := fun h => hR.first h.1
  last := fun h => hR.last h.1
  hasValues := fun h => hR.hasValues h.1
  values := by
    intro x d children h
    have hself := h.2 d.pfx
    rw [lookup_node, descend_self] at hself
    rw [hR.values h.1, hself]
    rfl
  firstValue := by
    intro x d children h hne
    have hself := h.2 d.pfx
    rw [lookup_node, descend_self] at hself
    have hfirst := hR.firstValue h.1 hne
    rw [hself] at hfirst
    exact hfirst
  null := fun h => hR.null h.1
  child := by
    intro x d children h c d' children' hc
    obtain ⟨y, hread, hy⟩ := hR.child h.1 hc
    refine ⟨y, hread, hy, fun q => ?_⟩
    have hbelow := h.2 (d.pfx ++ c :: q)
    rw [lookup_node, descend_below, hc] at hbelow
    exact hbelow

end Reader

/-! ## Asking for one key

Any key can be singled out: its literal part, followed by a text that is longer
than all keys, for a `fnmatch` that matches its pattern with this text only.
-/

/-- All selected keys are equal. -/
def OneKey (select : CStr → CStr → Bool) (query : CStr)
    (contents : List (CStr × IndexValue)) : Prop :=
  ∀ e ∈ contents, ∀ e' ∈ contents, select e.1 query = true → select e'.1 query = true → e.1 = e'.1

theorem exists_mem_of_matching {select : CStr → CStr → Bool} {query : CStr}
    {contents : List (CStr × IndexValue)} (h : matching select query contents ≠ []) :
    ∃ e ∈ contents, select e.1 query = true := by
  obtain ⟨v, hv⟩ := List.exists_mem_of_ne_nil _ h
  obtain ⟨e, he, _⟩ := List.mem_map.mp hv
  exact ⟨e, (List.mem_filter.mp he).1, (List.mem_filter.mp he).2⟩

/-- Selecting goes on behind a first character. -/
theorem OneKey.tail {select : CStr → CStr → Bool} {c : UInt8} {query query' : CStr}
    {contents contents' : List (CStr × IndexValue)} (h : OneKey select query contents)
    (hsub : ∀ e ∈ contents', (c :: e.1, e.2) ∈ contents)
    (hsel : ∀ key, select (c :: key) query = select key query') :
      OneKey select query' contents' := by
  intro e he e' he' hm hm'
  refine (List.cons.inj (h _ (hsub e he) _ (hsub e' he') ?_ ?_)).2
  · rw [hsel]; exact hm
  · rw [hsel]; exact hm'

section Children

variable {g : List IndexValue → List IndexValue} {select : CStr → CStr → Bool} {query : CStr}
  {d : NodeData} {children : UInt8 → IndexNode}

theorem mem_contentsFrom_child {c : UInt8} (hc : c ∈ charsBetween d.first d.last)
    {e : CStr × IndexValue} (he : e ∈ (children c).contents g) :
    (c :: e.1, e.2) ∈ contentsFrom g d children [] :=
  List.mem_append_left _ (List.mem_flatMap.mpr ⟨c, hc, List.mem_map.mpr ⟨e, he, rfl⟩⟩)

/-- Only one child of a node can contribute. -/
theorem OneKey.child (h : OneKey select query (contentsFrom g d children [])) :
    ∀ a ∈ charsBetween d.first d.last, ∀ b ∈ charsBetween d.first d.last,
      matching select query (((children a).contents g).map (fun e => (a :: e.1, e.2))) ≠ [] →
      matching select query (((children b).contents g).map (fun e => (b :: e.1, e.2))) ≠ [] →
      a = b := by
  intro a ha b hb hfa hfb
  obtain ⟨_, hin, hm⟩ := exists_mem_of_matching hfa
  obtain ⟨_, hin', hm'⟩ := exists_mem_of_matching hfb
  obtain ⟨e, he, rfl⟩ := List.mem_map.mp hin
  obtain ⟨e', he', rfl⟩ := List.mem_map.mp hin'
  have heq := h _ (mem_contentsFrom_child ha he) _ (mem_contentsFrom_child hb he') hm hm'
  exact (List.cons.inj heq).1

end Children

/-- **If all matching keys are equal, their values come in the order of the contents.** -/
theorem wildAt_eq (g : List IndexValue → List IndexValue) (fnmatch : CStr → CStr → Bool)
    (query : CStr) :
    (∀ c ∈ query, isWild c = false) → ∀ (pfx : CStr) (d : NodeData) (children : UInt8 → IndexNode),
      Ok (.node d children) → OneKey (keyMatches fnmatch) query (contentsFrom g d children pfx) →
      wildAt g fnmatch query pfx d children
        = matching (keyMatches fnmatch) query (contentsFrom g d children pfx) := by
  induction query with
  | nil =>
    intro _ pfx d children hok hone
    cases pfx with
    | nil =>
      unfold wildAt
      rw [matching_contentsFrom, keyMatches_nil, if_pos (by simp), wildChildren_eq]
      refine congrArg (fun l => l ++ g d.values) (Eq.symm ?_)
      -- only the wildcard children can match the end of the query
      refine flatMap_eq_of_support (nodup_charsBetween ..) (by decide) (fun c _ hc => ?_)
        (fun c _ hc => ?_) hone.child
      · exact matching_literalChild_nil (not_wild_of_notMem hc) _
      · rw [hok.node.contents_out g hc]; rfl
    | cons p pfx =>
      unfold wildAt
      rw [contentsFrom_cons]
      by_cases hp : isWild p = true
      · rw [if_pos hp, matching_wildChild hp]
      · rw [if_neg hp, matching_literalChild_nil (by simpa using hp)]
  | cons k query ih =>
    intro hquery pfx d children hok hone
    have hk := hquery k (List.mem_cons_self ..)
    have hsel : ∀ key, keyMatches fnmatch (k :: key) (k :: query) =
        keyMatches fnmatch key query := by
      intro key
      rw [keyMatches_cons_cons hk]
      simp
    have ih' := ih (fun c hc => hquery c (List.mem_cons_of_mem _ hc))
    cases pfx with
    | nil =>
      unfold wildAt
      rw [matching_contentsFrom, keyMatches_nil, if_neg (by simp), List.append_nil,
        wildChildren_eq]
      -- the children that can match are the wildcards, and the one for `k`
      have heq := flatMap_eq_of_support (f := fun c => matching (keyMatches fnmatch) (k :: query)
          (((children c).contents g).map (fun e => (c :: e.1, e.2))))
        (nodup_charsBetween d.first d.last) (nodup_wild_concat hk) (fun c _ hc => by
          rw [List.mem_append, not_or, List.mem_singleton] at hc
          rw [matching_literalChild (not_wild_of_notMem hc.1), if_neg hc.2])
        (fun c _ hc => by rw [hok.node.contents_out g hc]; rfl) hone.child
      refine Eq.trans ?_ heq.symm
      rw [List.flatMap_append, List.flatMap_singleton, matching_literalChild hk, if_pos rfl]
      refine congrArg (List.append _) ?_
      cases hc : children k with
      | null => rfl
      | node d' children' =>
        have hok' := hok.child k
        have hin := mem_charsBetween.mpr (hok.node.range k (by rw [hc]; simp))
        rw [hc] at hok'
        refine ih' d'.pfx d' children' hok' (hone.tail (c := k) (fun e he => ?_) hsel)
        exact mem_contentsFrom_child hin (by rw [hc]; exact he)
    | cons p pfx =>
      unfold wildAt
      by_cases hp : isWild p = true
      · rw [if_pos hp, contentsFrom_cons, matching_wildChild hp]
      · rw [if_neg hp, contentsFrom_cons, matching_literalChild (by simpa using hp)]
        by_cases hpk : p = k
        · subst hpk
          rw [if_pos rfl, if_pos rfl]
          refine ih' pfx d children hok (hone.tail (c := p) (fun e he => ?_) hsel)
          rw [contentsFrom_cons]
          exact List.mem_map.mpr ⟨e, he, rfl⟩
        · rw [if_neg hpk, if_neg hpk]

/-- The literal part of a key. -/
def literalPart (key : CStr) : CStr := key.takeWhile (fun c => !isWild c)

/-- The pattern that ends a key. -/
def patternPart (key : CStr) : CStr := key.dropWhile (fun c => !isWild c)

theorem literalPart_append (key : CStr) : literalPart key ++ patternPart key = key :=
  List.takeWhile_append_dropWhile

/-- The text that stands for the pattern of a key. -/
def probeText (key : CStr) (n : Nat) : CStr :=
  if patternPart key = [] then [] else List.replicate n 120

/-- A query for the key, among keys shorter than `n`. -/
def probe (key : CStr) (n : Nat) : CStr := literalPart key ++ probeText key n

/-- A `fnmatch` for that query. -/
def probeMatch (key : CStr) (n : Nat) (pat str : CStr) : Bool :=
  pat = patternPart key ∧ str = probeText key n

theorem probe_not_wild (key : CStr) (n : Nat) : ∀ c ∈ probe key n, isWild c = false := by
  intro c hc
  rcases List.mem_append.mp hc with hc | hc
  · simpa using List.mem_takeWhile_imp hc
  · unfold probeText at hc
    split at hc
    · exact absurd hc (by simp)
    · rw [List.eq_of_mem_replicate hc]
      decide

/-- **Only the key itself is found.** -/
theorem keyMatches_probe {key k : CStr} {n : Nat} (hk : k.length < n) :
    keyMatches (probeMatch key n) k (probe key n) = hasKey k key := by
  have hsplit := literalPart_append k
  have hkey := literalPart_append key
  unfold hasKey
  rw [Bool.eq_iff_iff, decide_eq_true_iff, keyMatches]
  show (if patternPart k = [] then decide (literalPart k = probe key n)
    else (literalPart k).isPrefixOf (probe key n) &&
      probeMatch key n (patternPart k) ((probe key n).drop (literalPart k).length)) = true ↔ _
  by_cases hpat : patternPart k = []
  · rw [if_pos hpat, decide_eq_true_iff]
    rw [hpat, List.append_nil] at hsplit
    rw [hsplit, probe, probeText]
    by_cases hpat' : patternPart key = []
    · rw [hpat', List.append_nil] at hkey
      rw [if_pos hpat', List.append_nil, hkey]
    · rw [if_neg hpat']
      refine ⟨?_, ?_⟩
      · intro h
        have := congrArg List.length h
        rw [List.length_append, List.length_replicate] at this
        omega
      · intro h
        exact absurd (h ▸ hpat) hpat'
  · rw [if_neg hpat, Bool.and_eq_true, List.isPrefixOf_iff_prefix, probeMatch, decide_eq_true_iff]
    refine ⟨?_, ?_⟩
    · rintro ⟨⟨rest, hrest⟩, hwild, hdrop⟩
      -- the literal parts are both what stands before the text
      rw [← hrest, List.drop_left] at hdrop
      rw [hdrop, probe] at hrest
      rw [← hsplit, ← hkey, hwild, List.append_cancel_right hrest]
    · rintro rfl
      exact ⟨List.prefix_append .., rfl, List.drop_left ..⟩

/-- The keys of the contents were entered. -/
theorem Contains.mem_contents {root : IndexNode} {es : List Entry} (h : Contains root es)
    {g : List IndexValue → List IndexValue} (hg : g [] = []) {e : CStr × IndexValue}
    (he : e ∈ root.contents g) : ∃ x ∈ es, x.key = e.1 := by
  have hmem : e.2 ∈ matching hasKey e.1 (root.contents g) :=
    List.mem_map.mpr ⟨e, List.mem_filter.mpr ⟨he, by simp [hasKey]⟩, rfl⟩
  by_contra hnone
  have hempty : entered es e.1 = [] := by
    unfold entered
    rw [List.map_eq_nil_iff, List.filter_eq_nil_iff]
    intro x hx hk
    exact hnone ⟨x, hx, by simpa using hk⟩
  rw [matching_hasKey hg root h.ok, h.lookup, hempty, addValues_eq_nil.mpr rfl, hg] at hmem
  exact absurd hmem (by simp)

/-- **Every key can be asked for**: the search collects its values, as the reader shows them. -/
theorem Contains.wildAt_probe {d : NodeData} {children : UInt8 → IndexNode} {es : List Entry}
    (h : Contains (.node d children) es) {n : Nat} (hn : ∀ e ∈ es, e.key.length < n)
    {g : List IndexValue → List IndexValue} (hg : g [] = []) (key : CStr) :
    wildAt g (probeMatch key n) (probe key n) d.pfx d children
      = g (addValues [] (entered es key)) := by
  -- among the keys of the tree, only this one matches
  have hsel : ∀ e ∈ contentsFrom g d children d.pfx,
      keyMatches (probeMatch key n) e.1 (probe key n) = hasKey e.1 key := by
    intro e he
    obtain ⟨x, hx, hkey⟩ := h.mem_contents hg he
    exact keyMatches_probe (hkey ▸ hn x hx)
  have hone : OneKey (keyMatches (probeMatch key n)) (probe key n)
      (contentsFrom g d children d.pfx) := by
    intro e he e' he' hm hm'
    rw [hsel e he, hasKey, decide_eq_true_iff] at hm
    rw [hsel e' he', hasKey, decide_eq_true_iff] at hm'
    rw [hm, hm']
  rw [wildAt_eq g _ _ (probe_not_wild key n) d.pfx d children h.ok hone, ← h.lookup,
    ← matching_hasKey hg _ h.ok, contents_node, matching, matching,
    List.filter_congr (fun e he => hsel e he)]

/-! ## Agreement -/

/-- The mapping and the stream give the same answers. -/
structure IndexesAgree (mm : IndexMm) (file : IndexFile) : Prop where
  search : ∀ host key, ∃ res, indexSearch host file key = .ok res ∧
    indexMmSearch host mm key = .ok res
  searchwild : ∀ host fnmatch key, ∃ out bound, ∀ fuel ≥ bound,
    indexSearchwild host fnmatch fuel file key = .ok out ∧
      indexMmSearchwild host fnmatch fuel mm key = .ok out
  dump : ∀ aliasPrefix, ∃ out bound, ∀ fuel ≥ bound,
    indexDump fuel file aliasPrefix = .ok out ∧ indexMmDump fuel mm aliasPrefix = .ok out

/-- Two contexts give the same answers from one of their indexes. -/
structure ContextsAgree (ctx ctx' : KmodCtx) (type : KmodIndex) : Prop where
  lookupFile : ∀ name, ∃ res, lookupFile ctx type name = .ok res ∧
    lookupFile ctx' type name = .ok res
  lookupAlias : ∀ fnmatch name, ∃ res bound, ∀ fuel ≥ bound,
    kmodLookupAliasFromAliasBin fnmatch fuel ctx type name = .ok res ∧
      kmodLookupAliasFromAliasBin fnmatch fuel ctx' type name = .ok res
  dumpIndex : ∃ res bound, ∀ fuel ≥ bound,
    kmodDumpIndex fuel ctx type = .ok res ∧ kmodDumpIndex fuel ctx' type = .ok res

/-- Both readers open the file and agree on it; so do contexts that differ in having loaded it. -/
structure ReadersAgree (file : List UInt8) : Prop where
  indexes : ∃ mm f, indexMmOpen file = .ok mm ∧ indexFileOpen file = some f ∧ IndexesAgree mm f
  contexts : ∀ {ctx ctx' type}, ctx.file type = .ok file → ctx.indexes type = none →
    kmodLoadResources ctx = (0, ctx') → ContextsAgree ctx ctx' type

/-- Under every key, the values of equal priority read the same from both ends. -/
def Balanced (es : List Entry) : Prop :=
  ∀ key priority, ((entered es key).filter (fun v => v.priority = priority)).reverse
    = (entered es key).filter (fun v => v.priority = priority)

theorem classOf_byPriority (v : IndexValue) (values : List IndexValue) :
    classOf ByPriority v values = values.filter (fun w => w.priority = v.priority) := by
  refine List.filter_congr (fun w _ => decide_eq_decide.mpr ⟨fun h => ?_, fun h => ?_⟩)
  · exact UInt32.le_antisymm h.2 h.1
  · exact ⟨UInt32.le_of_eq h.symm, UInt32.le_of_eq h⟩

/-- The second insertion leaves the values of each key alone. -/
theorem balanced_iff (es : List Entry) :
    Balanced es ↔ ∀ key, addValues [] (addValues [] (entered es key)) = addValues []
      (entered es key) := by
  refine forall_congr' (fun key => ?_)
  rw [addValues_eq, addValues_eq, insertAll_insertAll_eq_iff]
  refine ⟨?_, ?_⟩
  · intro h v
    rw [classOf_byPriority]
    exact h v.priority
  · intro h priority
    have hv := h ⟨priority, []⟩
    rw [classOf_byPriority] at hv
    exact hv

/-- Inserting a third time shows what the second time did. -/
theorem addValues_fixed {values : List IndexValue}
    (h : addValues [] (addValues [] (addValues [] values)) = addValues [] (addValues [] values)) :
    addValues [] (addValues [] values) = addValues [] values := by
  rw [addValues_eq, addValues_eq, addValues_eq, insertAll_insertAll_eq_iff] at h
  rw [addValues_eq, addValues_eq, insertAll_insertAll_eq_iff]
  intro v
  have hv := h v
  rw [classOf_insertAll, List.reverse_append, List.reverse_reverse] at hv
  simpa [classOf] using hv.symm

theorem IndexesAgree.contexts {mm : IndexMm} {f : IndexFile} (h : IndexesAgree mm f)
    {ctx ctx' : KmodCtx} {type : KmodIndex} (hhost : ctx'.host = ctx.host)
    (hidx : ctx.indexes type = none)
    (hidx' : ctx'.indexes type = some mm) (hopen : ctx.openFile type = some f) :
    ContextsAgree ctx ctx' type where
  lookupFile := by
    intro name
    obtain ⟨res, hf, hmm⟩ := h.search ctx.host name
    refine ⟨res, ?_, ?_⟩
    · rw [lookupFile, hidx, hopen]; exact hf
    · rw [lookupFile, hidx', hhost]; exact hmm
  lookupAlias := by
    intro fnmatch name
    obtain ⟨out, bound, hout⟩ := h.searchwild ctx.host fnmatch name
    refine ⟨out.mapM (fun v => kmodModuleNewFromAlias name v.value), bound,
      fun fuel hfuel => ⟨?_, ?_⟩⟩
    · simp only [kmodLookupAliasFromAliasBin, hidx, hopen, (hout fuel hfuel).1]
      rfl
    · simp only [kmodLookupAliasFromAliasBin, hidx', hhost, (hout fuel hfuel).2]
      rfl
  dumpIndex := by
    obtain ⟨out, bound, hout⟩ := h.dump type.aliasPrefix
    refine ⟨(0, out), bound, fun fuel hfuel => ⟨?_, ?_⟩⟩
    · simp only [kmodDumpIndex, hidx, hopen, (hout fuel hfuel).1]
      rfl
    · simp only [kmodDumpIndex, hidx', (hout fuel hfuel).2]
      rfl

section Opened

variable {mm : IndexMm} {f : IndexFile} {x : Option IndexMmNode} {y : IndexNodeF} {d : NodeData}
  {children : UInt8 → IndexNode} (hsize : mm.mm.length < 2 ^ 28)
  (hroot : indexMmReadNode mm mm.rootOffset = .ok x) (hshows : ShowsRoot (MmNode mm) x d children)
  (hfsize : f.file.length < 2 ^ 28) (hfroot : indexRead f f.rootOffset = some y)
  (hfshows : FileNode f y d children)
include hsize hroot hshows hfsize hfroot hfshows

/-- If the second insertion changes nothing, both readers show the same tree. -/
theorem indexesAgree_of_fixed (hfixed : ∀ q, addValues [] ((IndexNode.node d children).lookup q)
    = (IndexNode.node d children).lookup q) : IndexesAgree mm f := by
  have hmmR := mmReader_represents hsize
  have hfR := (fileReader_represents hfsize).of_fixed
  have hfsame : ShowsRoot (fun x d children => FileNode f x d children ∧ ∀ q,
      addValues [] ((IndexNode.node d children).lookup q) = (IndexNode.node d children).lookup q)
      (some y) d children := ⟨hfshows, hfixed⟩
  constructor
  · intro host key
    refine ⟨(id ((IndexNode.node d children).lookup key)).head?.map IndexValue.value, ?_, ?_⟩
    · unfold indexSearch
      rw [hfroot]
      exact search_eq hfR hfsame key
    · unfold indexMmSearch
      rw [hroot]
      exact search_eq hmmR hshows key
  · intro host fnmatch key
    refine ⟨addValues [] (wildAt id fnmatch key d.pfx d children),
      (IndexNode.node d children).nodes + 128, fun fuel hfuel => ⟨?_, ?_⟩⟩
    · unfold indexSearchwild
      rw [hfroot]
      exact searchwild_eq hfR fnmatch hfsame hfuel key
    · unfold indexMmSearchwild
      rw [hroot]
      exact searchwild_eq hmmR fnmatch hshows hfuel key
  · intro aliasPrefix
    refine ⟨dumpOf id (.node d children) (if aliasPrefix then cstr "alias " else []),
      (IndexNode.node d children).nodes + 128, fun fuel hfuel => ⟨?_, ?_⟩⟩
    · unfold indexDump
      rw [hfroot]
      exact dump_eq hfR hfsame hfuel aliasPrefix
    · unfold indexMmDump
      rw [hroot]
      exact dump_eq hmmR hshows hfuel aliasPrefix

/-- If the readers agree, the second insertion changes no values that were entered. -/
theorem fixed_of_indexesAgree (h : IndexesAgree mm f) {es : List Entry}
    (hcont : Contains (.node d children) es) (key : CStr) :
    addValues [] (addValues [] (entered es key)) = addValues [] (entered es key) := by
  have hn : ∀ e ∈ es, e.key.length < (es.map (fun e => e.key.length)).sum + 1 := by
    intro e he
    have := List.single_le_sum (fun _ _ => Nat.zero_le _) _
      (List.mem_map_of_mem (f := fun e : Entry => e.key.length) he)
    omega
  generalize (es.map (fun e => e.key.length)).sum + 1 = n at hn
  -- both readers answer the query that no other key can match
  obtain ⟨out, bound, hout⟩ := h.searchwild littleHost (probeMatch key n) (probe key n)
  obtain ⟨hstream, hmap⟩ := hout (max bound ((IndexNode.node d children).nodes + 128))
    (Nat.le_max_left ..)
  unfold indexMmSearchwild at hmap
  rw [hroot] at hmap
  have hmap' := (searchwild_eq (mmReader_represents hsize) (probeMatch key n) hshows
    (Nat.le_max_right ..) (probe key n)).symm.trans hmap
  unfold indexSearchwild at hstream
  rw [hfroot, searchwild_eq (fileReader_represents hfsize) (probeMatch key n)
    (show ShowsRoot _ (some y) _ _ from hfshows) (Nat.le_max_right ..), ← hmap'] at hstream
  have hsame := Except.ok.inj hstream
  rw [hcont.wildAt_probe hn (addValues_eq_nil.mpr rfl), hcont.wildAt_probe hn rfl] at hsame
  exact addValues_fixed hsame

end Opened

/-- The readers of a file agree if its entries are balanced. -/
theorem indexesAgree_of_balanced {es : List Entry} (hbal : Balanced es) {root : IndexNode}
    (hcont : Contains root es) (hlt : (indexWrite root).length < 2 ^ 28) :
    ∃ mm f, indexMmOpen (indexWrite root) = .ok mm ∧ indexFileOpen (indexWrite root) = some f ∧
      IndexesAgree mm f := by
  cases root with
  | null => exact absurd hcont.rooted (by simp [Rooted])
  | node d children =>
    obtain ⟨mm, x, hmm, hsize, hroot, hshows⟩ := indexMmOpen_written hcont.ok hlt
    obtain ⟨f, y, hf, hfsize, hfroot, hfshows⟩ := indexFileOpen_written hcont.ok hlt
    refine ⟨mm, f, hmm, hf,
      indexesAgree_of_fixed hsize hroot hshows hfsize hfroot hfshows (fun q => ?_)⟩
    rw [hcont.lookup]
    exact (balanced_iff es).mp hbal q

/--
**When the readers agree.** For every sequence of insertions of clean strings that
leads to a file smaller than `2 ^ 28` bytes, the two readers give the same answers
from the file exactly if the insertions are balanced.
-/
theorem readersAgree_iff {es : List Entry} (hes : ∀ e ∈ es, e.Clean) :
    ∃ root, insertEntries indexCreate es = .ok root ∧
      ((indexWrite root).length < 2 ^ 28 → (ReadersAgree (indexWrite root) ↔ Balanced es)) := by
  obtain ⟨root, hrun, hcont⟩ := insertEntries_contains hes
  refine ⟨root, hrun, fun hlt => ?_⟩
  cases root with
  | null => exact absurd hcont.rooted (by simp [Rooted])
  | node d children =>
    refine ⟨?_, ?_⟩
    · intro h
      obtain ⟨mm, x, hmm, hsize, hroot, hshows⟩ := indexMmOpen_written hcont.ok hlt
      obtain ⟨f, y, hf, hfsize, hfroot, hfshows⟩ := indexFileOpen_written hcont.ok hlt
      obtain ⟨mm', f', hmm', hf', hagree⟩ := h.indexes
      obtain rfl : mm' = mm := Except.ok.inj (hmm'.symm.trans hmm)
      obtain rfl : f' = f := Option.some.inj (hf'.symm.trans hf)
      -- the same answer to every probe means the same values under every key
      rw [balanced_iff]
      exact fixed_of_indexesAgree hsize hroot hshows hfsize hfroot hfshows hagree hcont
    · intro hbal
      obtain ⟨mm, f, hmm, hf, hagree⟩ := indexesAgree_of_balanced hbal hcont hlt
      refine ⟨⟨mm, f, hmm, hf, hagree⟩, fun {ctx ctx' type} hfile hnone hload => ?_⟩
      have hopenMm : ctx.openMm type = .ok mm := by
        simp only [KmodCtx.openMm, hfile, bind, Except.bind, hmm]
      have hopenFile : ctx.openFile type = some f := by
        unfold KmodCtx.openFile
        rw [hfile]
        exact hf
      exact hagree.contexts (kmodLoadResources_host hload) hnone
        (kmodLoadResources_loads hload hopenMm hnone) hopenFile

/-- Two keys, one of them with three values of one priority that read the same both ways. -/
def balancedEntries : List Entry :=
  [⟨cstr "ab", cstr "y", 0⟩, ⟨cstr "ab", cstr "z", 0⟩, ⟨cstr "a", cstr "x", 0⟩,
    ⟨cstr "ab", cstr "y", 0⟩, ⟨cstr "ab", cstr "w", 1⟩]

theorem readersAgree_iff_balancedEntries :
    (∀ e ∈ balancedEntries, e.Clean) ∧ Balanced balancedEntries ∧
      ∃ root, insertEntries indexCreate balancedEntries = .ok root ∧
        (indexWrite root).length < 2 ^ 28 ∧ ReadersAgree (indexWrite root) := by
  have hbal : Balanced balancedEntries := by
    rw [balanced_iff]
    intro key
    by_cases hab : key = cstr "ab"
    · rw [hab]; decide
    · by_cases ha : key = cstr "a"
      · rw [ha]; decide
      · have hempty : entered balancedEntries key = [] := by
          simp [entered, balancedEntries, Ne.symm hab, Ne.symm ha]
        rw [hempty]
        rfl
  obtain ⟨root, hrun, hread⟩ := readersAgree_iff
    (show ∀ e ∈ balancedEntries, e.Clean by decide)
  have hsmall : (indexWrite root).length < 2 ^ 28 := by
    injection hrun with hrun
    rw [← hrun]
    decide
  exact ⟨by decide, hbal, root, hrun, hsmall, (hread hsmall).mpr hbal⟩

/-- One key with two values of equal priority, as two built-in modules with the same alias. -/
def twoValues : List Entry := [⟨cstr "k", cstr "a", 0⟩, ⟨cstr "k", cstr "b", 0⟩]

/-- The mapping answers with the value entered last, the stream with the one entered first. -/
theorem twoValues_disagree :
    (∀ e ∈ twoValues, e.Clean) ∧
      ∃ root mm f, insertEntries indexCreate twoValues = .ok root ∧
        (indexWrite root).length < 2 ^ 28 ∧
        indexMmOpen (indexWrite root) = .ok mm ∧ indexFileOpen (indexWrite root) = some f ∧
        indexMmSearch littleHost mm (cstr "k") = .ok (some (cstr "b")) ∧
        indexSearch littleHost f (cstr "k") = .ok (some (cstr "a")) ∧ ¬ ReadersAgree (indexWrite root) := by
  obtain ⟨root, hrun, hcont⟩ := insertEntries_contains
    (show ∀ e ∈ twoValues, e.Clean by decide)
  have hsmall : (indexWrite root).length < 2 ^ 28 := by
    injection hrun with hrun
    rw [← hrun]
    decide
  cases root with
  | null => exact absurd hcont.rooted (by simp [Rooted])
  | node d children =>
    obtain ⟨mm, x, hmm, hsize, hroot, hshows⟩ := indexMmOpen_written hcont.ok hsmall
    obtain ⟨f, y, hf, hfsize, hfroot, hfshows⟩ := indexFileOpen_written hcont.ok hsmall
    have hmap : indexMmSearch littleHost mm (cstr "k") = .ok (some (cstr "b")) := by
      unfold indexMmSearch
      rw [hroot]
      refine (search_eq (mmReader_represents hsize) hshows _).trans ?_
      rw [hcont.lookup]
      rfl
    have hstream : indexSearch littleHost f (cstr "k") = .ok (some (cstr "a")) := by
      unfold indexSearch
      rw [hfroot]
      have hfroots : ShowsRoot (FileNode f) (some y) d children := hfshows
      refine (search_eq (fileReader_represents hfsize) hfroots _).trans ?_
      rw [hcont.lookup]
      rfl
    refine ⟨by decide, _, mm, f, hrun, hsmall, hmm, hf, hmap, hstream, fun h => ?_⟩
    obtain ⟨mm', f', hmm', hf', hagree⟩ := h.indexes
    obtain rfl : mm' = mm := Except.ok.inj (hmm'.symm.trans hmm)
    obtain rfl : f' = f := Option.some.inj (hf'.symm.trans hf)
    obtain ⟨res, hstream', hmap'⟩ := hagree.search littleHost (cstr "k")
    rw [hstream] at hstream'
    rw [hmap, ← hstream'] at hmap'
    exact absurd hmap' (by decide)

end Kmod.Index

import SchemaGuard.Proofs.Script.Names
import SchemaGuard.Proofs.Script.Repeats
import SchemaGuard.Proofs.Script.Steps

/-!
The names of instantiations. The search for a name ends, at the first candidate that nothing has
taken. What is taken is at any time what guards and factories are called and what has been handed
out, and that in turn is what the module and the factories left behind bind, each name once.
-/

set_option autoImplicit false
set_option relaxedAutoImplicit false

namespace SchemaGuard.Script

/-- The names that are tried for an instantiation, one after the other. -/
def candidate (base : String) : Nat → String
  | 0 => base
  | n + 1 => base ++ "_" ++ toString (n + 2)

private theorem candidates_eq (base : String) (count : Nat) :
    base :: ((List.range count).map fun n => base ++ "_" ++ toString (n + 2))
      = (List.range (count + 1)).map (candidate base) := by
  rw [List.range_succ_eq_map, List.map_cons, List.map_map]
  rfl

private theorem unused_eq_candidate (taken : List String) (base : String) :
    ∃ n ≤ taken.length, unused taken base = candidate base n ∧ candidate base n ∉ taken ∧
      ∀ m < n, candidate base m ∈ taken := by
  have hfree : unused taken base ∉ taken := (unused_spec taken base).1
  have hunused : unused taken base = (((List.range (taken.length + 1)).find?
      fun n => !taken.contains (candidate base n)).map (candidate base)).getD base := by
    rw [unused, candidates_eq, List.find?_map]
    rfl
  cases hfind : (List.range (taken.length + 1)).find?
      fun n => !taken.contains (candidate base n) with
  | none =>
    -- the first candidate would be the result, though it is taken
    have hbase : candidate base 0 ∈ taken := by
      simpa using List.find?_eq_none.mp hfind 0 (by simp)
    rw [hunused, hfind] at hfree
    exact absurd hbase hfree
  | some n =>
    obtain ⟨hn, hmem, hbefore⟩ := List.find?_range_eq_some.mp hfind
    refine ⟨n, Nat.le_of_lt_succ (List.mem_range.mp hmem), ?_, by simpa using hn, fun m hm => ?_⟩
    · rw [hunused, hfind, Option.map_some, Option.getD_some]
    · simpa using hbefore m hm

/-- Besides the reserved names the given ones are taken, each of them once, and they are not
reserved. -/
def Handed (reserved taken names : List String) : Prop :=
  ∃ handed, taken = handed ++ reserved ∧ handed.Nodup ∧ (∀ x ∈ handed, x ∉ reserved) ∧
    handed.Perm names

namespace Handed

variable {reserved taken names names' : List String} {x : String}

private theorem perm (h : Handed reserved taken names) (hnames : names.Perm names') :
    Handed reserved taken names' := by
  obtain ⟨handed, htaken, hdistinct, hunlike, hperm⟩ := h
  exact ⟨handed, htaken, hdistinct, hunlike, hperm.trans hnames⟩

private theorem cons (h : Handed reserved taken names) (hx : x ∉ taken) :
    Handed reserved (x :: taken) (x :: names) := by
  obtain ⟨handed, rfl, hdistinct, hunlike, hperm⟩ := h
  obtain ⟨hother, hfree⟩ := not_or.mp (mt List.mem_append.mpr hx)
  exact ⟨x :: handed, rfl, List.nodup_cons.mpr ⟨hother, hdistinct⟩,
    List.forall_mem_cons.mpr ⟨hfree, hunlike⟩, hperm.cons x⟩

private theorem nodup (h : Handed reserved taken names) : names.Nodup := by
  obtain ⟨_, _, hdistinct, _, hperm⟩ := h
  exact hperm.nodup_iff.mp hdistinct

end Handed

namespace Emission

/-- Besides the reserved names, those of the factories that have been left and those of all
instantiations there are have been handed out; and no use site has two instantiations. -/
structure Issued (reserved left : List String) (s : Emission) : Prop where
  handed : Handed reserved s.taken (left ++ s.names)
  constantSites : (s.constants.map Binding.site).Nodup
  lazySites : ((s.lazies.getD []).map Binding.site).Nodup

variable {reserved left : List String} {s : Emission}

private theorem sites_concat {bindings : List Binding} {b : Binding}
    (h : (bindings.map Binding.site).Nodup) (hnone : bound? bindings b.site = none) :
    ((bindings ++ [b]).map Binding.site).Nodup := by
  rw [List.map_append, List.map_singleton, ← List.concat_eq_append, List.nodup_concat]
  refine ⟨fun hmem => ?_, h⟩
  obtain ⟨b', hb', hsite⟩ := List.mem_map.mp hmem
  exact bound?_eq_none hnone b' hb' hsite

private theorem Issued.store (h : s.Issued reserved left) (options : Options) {inst : Instantiation}
    (hnone : bound? (s.bindings inst) inst.site = none) (init : Expr) :
    (s.store inst (s.newBinding options inst.site init)).Issued reserved left := by
  let b := s.newBinding options inst.site init
  have hfree : b.name ∉ s.taken := (unused_spec _ _).1
  have hhanded : Handed reserved (s.store inst b).taken (left ++ (s.store inst b).names) := by
    rw [taken_store]
    refine (h.handed.cons hfree).perm ?_
    exact List.perm_middle.symm.trans ((names_store s inst b).symm.append_left left)
  cases hlazy : s.isLazy inst with
  | true =>
    simp only [bindings, hlazy, if_true] at hnone
    have hstore : s.store inst b = s.withLazy b := by rw [Emission.store, if_pos hlazy]
    refine ⟨hhanded, ?_, ?_⟩
    · rw [hstore]
      exact h.constantSites
    · rw [hstore]
      exact sites_concat h.lazySites hnone
  | false =>
    simp only [bindings, hlazy, Bool.false_eq_true, if_false] at hnone
    have hstore : s.store inst b = s.withConstant b := by simp [Emission.store, hlazy]
    refine ⟨hhanded, ?_, ?_⟩
    · rw [hstore]
      exact sites_concat h.constantSites hnone
    · rw [hstore]
      exact h.lazySites

end Emission

section

variable {schema : Schema} {options : Options} {reserved left : List String} {s : Emission}

private theorem inherited_issued (reserved left : List String) :
    Inherited fun step => ∀ s : Emission, s.Issued reserved left →
      (step s).2.Issued reserved left where
  pure _ _ h := h
  bind hstep hnext s h := hnext _ _ (hstep s h)
  freshVariable _ h := ⟨h.handed, h.constantSites, h.lazySites⟩
  instantiate options inst es s h := by
    rw [instantiate_eq]
    split
    · exact h
    · dsimp only
      split
      · exact h
      · next hnone => exact h.store options hnone _

private theorem Emission.lazies_enter (d : Definition) (hs : s.lazies = none) :
    (s.enter d).lazies.getD [] = [] := by
  cases hgeneric : d.isGeneric <;> simp [enter, hgeneric, hs]

theorem Emission.names_enter (d : Definition) (hs : s.lazies = none) :
    (s.enter d).names = s.names := by
  rw [names, names, lazies_enter d hs, hs, Option.getD_none]
  rfl

/-- The variables that a factory fills at their first use. -/
def Item.lazies : Item → List Lazy
  | .factory _ _ _ _ lazies _ => lazies
  | .guard .. | .constant .. => []

private theorem Item.lazyNames_eq (item : Item) : item.lazyNames = item.lazies.map Lazy.name := by
  cases item <;> rfl

private theorem definitionItem_lazies (d : Definition) (hs : s.lazies = none) :
    (definitionItem schema options d s).1.lazies
      = ((bodyState schema options d s).lazies.getD []).map fun b => ⟨b.name, b.site⟩ := by
  cases hgeneric : d.isGeneric with
  | true =>
    have henter : s.enter d = { s with used := 0, lazies := some [] } := by
      simp [Emission.enter, hgeneric]
    rw [definitionItem_factory hgeneric, bodyState, henter]
    rfl
  | false =>
    rw [definitionItem_guard hgeneric, bodyState_lazies hgeneric hs]
    rfl

private theorem definitionItem_issued (schema : Schema) (options : Options) (d : Definition)
    (h : s.Issued reserved left) (hs : s.lazies = none) :
    let r := definitionItem schema options d s
    r.2.Issued reserved (left ++ r.1.lazyNames) ∧ (r.1.lazies.map Lazy.type).Nodup := by
  have henter : (s.enter d).Issued reserved left := by
    refine ⟨?_, h.constantSites, by simp [Emission.lazies_enter d hs]⟩
    rw [Emission.names_enter d hs]
    exact h.handed
  obtain ⟨hhanded, hconstants, hlazies⟩ : (bodyState schema options d s).Issued reserved left :=
    (inherited_issued reserved left).definitionBody ⟨schema, options, Scope.of d⟩ d _ henter
  dsimp only
  rw [definitionItem_state d hs, Item.lazyNames_eq, definitionItem_lazies d hs, List.map_map,
    List.map_map]
  refine ⟨⟨hhanded.perm ?_, hconstants, List.nodup_nil⟩, hlazies⟩
  simp only [Emission.names, List.map_append, Option.getD_none, List.append_nil,
    List.append_assoc]
  exact List.perm_append_comm.append_left left

end

namespace Emitter

/-- The items of all definitions so far. -/
def items (e : Emitter) : List Item := e.blocks.flatMap ItemBlock.items

/-- Between definitions, the names handed out are those that the items bind and those of the
constants, and no use site is bound twice in the same place. -/
structure IsFresh (reserved : List String) (e : Emitter) : Prop where
  outside : e.emission.lazies = none
  issued : e.emission.Issued reserved (e.items.flatMap Item.lazyNames)
  lazySites : ∀ item ∈ e.items, (item.lazies.map Lazy.type).Nodup

private theorem isFresh_start (schema : Schema) (options : Options) :
    (start schema options).IsFresh (reservedNames schema options) where
  outside := rfl
  issued := ⟨⟨[], rfl, List.nodup_nil, by simp, .refl _⟩, List.nodup_nil, List.nodup_nil⟩
  lazySites := by simp [items, start, prelude, Item.lazies]

private theorem items_emit (e : Emitter) (d : Definition) :
    (e.emit d).items = e.items ++ [(definitionItem e.schema e.options d e.emission).1] := by
  simp [emit_eq, items]

private theorem IsFresh.emit {reserved : List String} {e : Emitter} (h : e.IsFresh reserved)
    (d : Definition) : (e.emit d).IsFresh reserved := by
  obtain ⟨hissued, hsites⟩ := definitionItem_issued e.schema e.options d h.issued h.outside
  refine ⟨lazies_emit h.outside d, ?_, ?_⟩
  · rw [items_emit, List.flatMap_append, List.flatMap_singleton]
    exact hissued
  · rw [items_emit]
    exact List.forall_mem_append.mpr ⟨h.lazySites, List.forall_mem_singleton.mpr hsites⟩

private theorem IsFresh.foldl_emit {reserved : List String} (ds : List Definition) {e : Emitter}
    (h : e.IsFresh reserved) : (ds.foldl Emitter.emit e).IsFresh reserved :=
  List.foldlRecOn ds Emitter.emit h fun _ h d _ => h.emit d

private theorem value_eq_iff {α β γ : Type} {f : α → β} {g : α → γ} {xs : List α}
    (hf : (xs.map f).Nodup) (hg : (xs.map g).Nodup) {x y : α} (hx : x ∈ xs) (hy : y ∈ xs) :
    f x = f y ↔ g x = g y :=
  ⟨fun h => congrArg g (List.inj_on_of_nodup_map hf hx hy h),
    fun h => congrArg f (List.inj_on_of_nodup_map hg hx hy h)⟩

/-- Names of instantiations are fresh. In any state the search for one ends, at the first candidate
that is not taken, and takes it. After any definitions, what is taken besides the names of guards
and factories is what has been handed out: no name twice, none of a guard or factory, and just those
that factories and the module bind. In one place names are the same just if the use sites are. -/
theorem issues_fresh_names (schema : Schema) (options : Options) :
    (∀ (s : Emission) (site : TypeRef),
      let base := options.guardName (word site.display)
      ∃ n ≤ s.taken.length,
        bindingName options site s
          = (candidate base n, { s with taken := candidate base n :: s.taken }) ∧
        candidate base n ∉ s.taken ∧ ∀ m < n, candidate base m ∈ s.taken) ∧
    ∀ ds : List Definition,
      let e := ds.foldl emit (start schema options)
      let constants := e.emission.constants
      ∃ handed, e.emission.taken = handed ++ reservedNames schema options ∧ handed.Nodup ∧
        (∀ x ∈ handed, x ∉ reservedNames schema options) ∧
        handed.Perm (e.items.flatMap Item.lazyNames ++ constants.map Binding.name) ∧
        (∀ b ∈ constants, ∀ b' ∈ constants, b.name = b'.name ↔ b.site = b'.site) ∧
        ∀ item ∈ e.items, ∀ l ∈ item.lazies, ∀ l' ∈ item.lazies,
          l.name = l'.name ↔ l.type = l'.type := by
  refine ⟨fun s site => ?_, fun ds => ?_⟩
  · obtain ⟨n, hn, hunused, hfree, hbefore⟩ :=
      unused_eq_candidate s.taken (options.guardName (word site.display))
    refine ⟨n, hn, ?_, hfree, hbefore⟩
    rw [← hunused]
    rfl
  · obtain ⟨houtside, hissued, hsites⟩ := (isFresh_start schema options).foldl_emit ds
    generalize ds.foldl emit (start schema options) = e at houtside hissued hsites
    have hnames : e.emission.names = e.emission.constants.map Binding.name := by
      simp [Emission.names, houtside]
    have hdistinct := hissued.handed.nodup
    rw [hnames] at hdistinct
    obtain ⟨hlazies, hconstants, _⟩ := List.nodup_append.mp hdistinct
    obtain ⟨handed, htaken, hnodup, hunlike, hperm⟩ := hissued.handed
    rw [hnames] at hperm
    refine ⟨handed, htaken, hnodup, hunlike, hperm, ?_, ?_⟩
    · exact fun b hb b' hb' => value_eq_iff hconstants hissued.constantSites hb hb'
    · intro item hitem l hl l' hl'
      have hnames := (List.nodup_flatMap.mp hlazies).1 item hitem
      rw [Item.lazyNames_eq] at hnames
      exact value_eq_iff hnames (hsites item hitem) hl hl'

-- different use sites can be spelled alike, so that only the number tells their names apart
example :
    word (TypeRef.generic "Box" [.named "A"]).display
      = word (TypeRef.generic "Box" [.tuple [.named "A"]]).display := by
  decide

end Emitter

end SchemaGuard.Script

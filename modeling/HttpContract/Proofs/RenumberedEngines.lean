import HttpContract.Proofs.CorrespondingTexts
import HttpContract.Proofs.Reindexing
import HttpContract.Proofs.RenumberedPlans

/-!
# Registries declared in another order

Declaring the names of a registry in another order gives them other handles, and renumbers the
markers in their schemas (`Registry.Renumbered`). The documents for evaluators, the compiled schemas
and the references between them are then the same but for the handles, so that both registries are
frozen or neither is (`Engine.alike_ofRegistry`).
-/

namespace HttpContract

open EvaluationForm Library Json Identifier

variable {π : Nat → Nat}

/-! ## Registries -/

/-- Entries of the same name with renumbered schemas, if any. -/
structure Registry.Entry.Renumbered (π : Nat → Nat) (a b : Registry.Entry) : Prop where
  name : b.name = a.name
  schema : Option.Rel (fun f f' => HttpContract.Renumbered π f.document f'.document) a.schema
    b.schema

/-- The same names, declared in another order, so that each has the handle that its former handle is
mapped to, and the markers in its schema name such handles. -/
structure Registry.Renumbered (π : Nat → Nat) (r r' : Registry) : Prop where
  injective : Function.Injective π
  entries : Reindexed π (Registry.Entry.Renumbered π) r.entries r'.entries

/-- The documents of a registry that evaluators can refer to. -/
def Registry.documents (r : Registry) : List Resource :=
  (Engine.numbered r).filterMap
    (fun x => ((Engine.resourceOf r.definedFlags x.1 x.2).toOption).join)

/-- Schemas that do not name the identifiers of handles themselves, and whose markers stand apart
from data and from properties named like it. -/
structure Movable (d : Json) : Prop where
  ordered : d.Ordered
  foreign : Foreign d
  data : UnmarkedUnder dataKeywords d

/-- What a registry has to be like for the order of its names not to matter. -/
structure Registry.Movable (r : Registry) : Prop where
  schemas : ∀ handle f, r.get? handle = some f → HttpContract.Movable f.document
  identifiers : r.documents.Pairwise
    (fun a b => (Library.identifiers a).Disjoint (Library.identifiers b))

namespace Engine

theorem getElem?_numbered (r : Registry) (i : Nat) :
    (numbered r)[i]? = (r.entries[i]?).map (fun x => (i, x)) := by
  unfold numbered
  cases hx : r.entries[i]? with
  | none =>
    have hlength := List.getElem?_eq_none_iff.mp hx
    exact List.getElem?_eq_none (by simpa using hlength)
  | some x =>
    have hlt := (List.getElem?_eq_some_iff.mp hx).1
    exact List.getElem?_zip_eq_some.mpr ⟨List.getElem?_range hlt, hx⟩

theorem getElem?_of_mem_numbered {r : Registry} {x : Nat × Registry.Entry} (hx : x ∈ numbered r) :
    r.entries[x.1]? = some x.2 := by
  rcases List.mem_iff_getElem?.mp hx with ⟨i, hi⟩
  rw [getElem?_numbered] at hi
  rcases Option.map_eq_some_iff.mp hi with ⟨entry, hentry, rfl⟩
  exact hentry

theorem eq_ok_of_join {ε α : Type} {x : Except ε (Option α)} {a : α}
    (h : x.toOption.join = some a) : x = .ok (some a) := by
  cases x with
  | error err => cases h
  | ok y =>
    cases y with
    | none => cases h
    | some b => exact congrArg (fun z => Except.ok (some z)) (Option.some.inj h)

theorem uri_of_resourceOf {defined : List Bool} {handle : Nat} {x : Registry.Entry} {a : Resource}
    (h : resourceOf defined handle x = .ok (some a)) : a.uri = resourceUri handle := by
  unfold resourceOf at h
  split at h
  · cases h
  · rcases bind_eq_ok h with ⟨y, -, hy⟩
    cases hy
    rfl

end Engine

namespace Registry

variable {r r' : Registry}

theorem Renumbered.numbered (h : r.Renumbered π r') :
    Reindexed π (fun a b => b.1 = π a.1 ∧ Entry.Renumbered π a.2 b.2) (Engine.numbered r)
      (Engine.numbered r') where
  length := by simp [Engine.numbered, h.entries.length]
  entries i := by
    have hrel := h.entries.entries i
    rw [Engine.getElem?_numbered, Engine.getElem?_numbered]
    generalize r.entries[i]? = x at hrel ⊢
    generalize r'.entries[π i]? = y at hrel ⊢
    cases hrel with
    | none => exact .none
    | some hxy => exact .some ⟨rfl, hxy⟩

theorem Renumbered.sameDefined (h : r.Renumbered π r') :
    SameDefined π r.definedFlags r'.definedFlags := by
  intro handle
  have hrel := (h.entries.map (S := Eq) (f := fun x => x.schema.isSome)
    (g := fun x => x.schema.isSome) (fun _ _ hxy => isSome_of_rel hxy.schema)).entries handle
  unfold definedFlags
  generalize (r.entries.map (fun x => x.schema.isSome))[handle]? = x at hrel ⊢
  generalize (r'.entries.map (fun x => x.schema.isSome))[π handle]? = y at hrel ⊢
  cases hrel with
  | none => rfl
  | some heq => exact heq.symm

theorem Movable.of_mem (h : r.Movable) {x : Registry.Entry} (hx : x ∈ r.entries) {f : Fragment}
    (hf : x.schema = some f) : HttpContract.Movable f.document := by
  rcases List.mem_iff_getElem?.mp hx with ⟨handle, hhandle⟩
  exact h.schemas handle f (by rw [get?, hhandle]; exact hf)

/-- Different handles have documents under different identifiers. -/
theorem pairwise_documents (r : Registry) : r.documents.Pairwise (fun a b => a.uri ≠ b.uri) := by
  have hhandles : (Engine.numbered r).Pairwise (fun x y => x.1 ≠ y.1) := by
    have hrange : (Engine.numbered r).map Prod.fst = List.range r.entries.length := by
      unfold Engine.numbered
      exact List.map_fst_zip (by simp)
    rw [← List.pairwise_map, hrange]
    exact List.nodup_range
  refine List.pairwise_filterMap.mpr (hhandles.imp (fun {x y} hxy a ha b hb huri => hxy ?_))
  have ha := Engine.uri_of_resourceOf (Engine.eq_ok_of_join ha)
  have hb := Engine.uri_of_resourceOf (Engine.eq_ok_of_join hb)
  exact resourceUri_inj (ha.symm.trans (huri.trans hb))

theorem Movable.apart (h : r.Movable) : r.documents.Pairwise Library.Apart :=
  (r.pairwise_documents.and h.identifiers).imp (fun hab => ⟨hab.1, hab.2⟩)

end Registry

/-! ## Documents and compiled schemas -/

namespace Engine

variable {r r' : Registry} {defined defined' : List Bool}

theorem alike_resourceOf (hdefined : SameDefined π defined defined') (handle : Nat)
    {a b : Registry.Entry} (h : a.Renumbered π b)
    (hmovable : ∀ f, a.schema = some f → Movable f.document) :
    Alike (Option.Rel (Resource.Linked π)) (resourceOf defined handle a)
      (resourceOf defined' (π handle) b) := by
  rcases a with ⟨name, schema⟩
  rcases b with ⟨name', schema'⟩
  obtain rfl : name' = name := h.name
  unfold resourceOf
  cases h.schema with
  | none => exact .ok .none
  | @some f f' hf =>
    have hf' := hmovable f rfl
    exact (alike_rewrite hdefined f.document (entryPath ⟨name', some f⟩) false "" hf hf'.foreign
      hf'.data (fun hk => absurd hk (by decide))).bind (fun a b hab =>
        .ok (.some ⟨(rename_resourceUri π handle).symm, hab.1.tame, "", hab.1.document⟩))

theorem alike_entryOf {c c' : Planning.Context} (hc : Planning.Context.Renumbered π c c')
    (o : Options) {a b : Registry.Entry} (h : a.Renumbered π b)
    (hmovable : ∀ f, a.schema = some f → Movable f.document) :
    Alike (Option.Rel (CompiledSchema.Alike (Counterpart π c.defined))) (entryOf c o a)
      (entryOf c' o b) := by
  rcases a with ⟨name, schema⟩
  rcases b with ⟨name', schema'⟩
  obtain rfl : name' = name := h.name
  unfold entryOf
  cases h.schema with
  | none => exact .ok .none
  | @some f f' hf =>
    have hf' := hmovable f rfl
    exact (Planning.alike_compile hc o _ hf hf'.ordered hf'.foreign (hf'.data.mono (by decide))
      hf'.data.parted).map (fun s s' hs => .some hs)

section

variable {entries entries' : List (Option CompiledSchema)}
  (h : Reindexed π (Option.Rel (CompiledSchema.Alike (Counterpart π defined))) entries entries')

include h

theorem edges_of_reindexed (handle : Nat) :
    edges entries' (π handle) = (edges entries handle).map π := by
  have hrel := h.entries handle
  unfold edges
  generalize entries[handle]? = x at hrel ⊢
  generalize entries'[π handle]? = x' at hrel ⊢
  cases hrel with
  | none => rfl
  | some hs =>
    cases hs with
    | none => rfl
    | some hs => exact hs.root.sameLocation

/-- The search for cycles finds one in both orders or in neither. -/
theorem cycle?_of_reindexed (hπ : Function.Injective π) :
    cycle? entries = none ↔ cycle? entries' = none := by
  rw [cycle?_eq_none_iff, cycle?_eq_none_iff]
  constructor
  · intro hacc handle'
    by_cases hlt : handle' < entries.length
    · rcases h.exists_index hπ hlt with ⟨handle, -, rfl⟩
      clear hlt
      -- references from renumbered handles lead to renumbered handles
      induction hacc handle with
      | intro handle _ ih =>
        refine ⟨_, fun next hnext => ?_⟩
        have hnext : next ∈ edges entries' (π handle) := hnext
        rw [edges_of_reindexed h] at hnext
        rcases List.mem_map.mp hnext with ⟨n, hn, rfl⟩
        exact ih n hn
    · exact acc_of_length_le (by rw [h.length]; omega)
  · intro hacc handle
    have hsub : Subrelation (Edge entries) (InvImage (Edge entries') π) := by
      intro next handle hnext
      show π next ∈ edges entries' (π handle)
      rw [edges_of_reindexed h]
      exact List.mem_map_of_mem hnext
    exact hsub.accessible (InvImage.accessible π (hacc (π handle)))

end

/-- The documents of a registry that can be frozen. -/
theorem documents_eq {resources : List (Option Resource)}
    (h : (numbered r).mapM (fun x => resourceOf r.definedFlags x.1 x.2) = .ok resources) :
    r.documents = resources.filterMap id := by
  have hall := forall₂_of_mapM h
  unfold Registry.documents
  clear h
  generalize numbered r = xs at hall
  induction hall with
  | nil => rfl
  | cons hx _ ih =>
    rw [List.filterMap_cons, List.filterMap_cons, hx, ih]
    rfl

theorem alike_resources (h : r.Renumbered π r') (hr : r.Movable) :
    Alike (Reindexed π (Option.Rel (Resource.Linked π)))
      ((numbered r).mapM (fun x => resourceOf r.definedFlags x.1 x.2))
      ((numbered r').mapM (fun x => resourceOf r'.definedFlags x.1 x.2)) := by
  have hentries := h.numbered.imp_of_mem
    (S := fun a b => b.1 = π a.1 ∧ Registry.Entry.Renumbered π a.2 b.2 ∧ a.2 ∈ r.entries)
    (fun x y hx hxy => ⟨hxy.1, hxy.2, List.mem_of_getElem? (getElem?_of_mem_numbered hx)⟩)
  refine hentries.alike_mapM h.injective (fun a b hab => ?_)
  rw [hab.1]
  exact alike_resourceOf h.sameDefined a.1 hab.2.1 (fun f hf => hr.of_mem hab.2.2 hf)

theorem renumbered_context (h : r.Renumbered π r') (hr : r.Movable)
    {resources resources' : List (Option Resource)}
    (hresources : (numbered r).mapM (fun x => resourceOf r.definedFlags x.1 x.2) = .ok resources)
    (hlinked : Reindexed π (Option.Rel (Resource.Linked π)) resources resources') :
    Planning.Context.Renumbered π ⟨r.definedFlags, resources.filterMap id⟩
      ⟨r'.definedFlags, resources'.filterMap id⟩ where
  injective := h.injective
  defined := h.sameDefined
  resources := by
    rcases hlinked.exists_perm h.injective with ⟨order, hperm, hall⟩
    exact ⟨order.filterMap id, hperm.filterMap id, List.rel_filterMap (fun _ _ hab => hab) hall⟩
  apart := documents_eq hresources ▸ hr.apart

/-! ## Freezing -/

/-- Engines of the same schemas under other handles. -/
structure Renumbered (π : Nat → Nat) (e e' : Engine) : Prop where
  options : e.options = e'.options
  context : Planning.Context.Renumbered π e.context e'.context
  entries : Reindexed π (Option.Rel (CompiledSchema.Alike (Counterpart π e.context.defined)))
    e.entries e'.entries
  compiled : ∀ handle, e.context.defined[handle]?.getD false = true →
    ∃ s, e.entry? handle = some s

/-- Frozen registries have a compiled schema for every defined handle. -/
theorem exists_entry?_of_defined {o : Options} {e : Engine} (h : ofRegistry o r = .ok e)
    {handle : Nat} (hdefined : e.context.defined[handle]?.getD false = true) :
    ∃ s, e.entry? handle = some s := by
  have hflags : e.context.defined = r.definedFlags := by
    rcases ofRegistry_eq_ok_iff.mp h with ⟨_, _, -, -, -, rfl⟩
    rfl
  rw [hflags, Registry.definedFlags, List.getElem?_map] at hdefined
  cases hentry : r.entries[handle]? with
  | none =>
    rw [hentry] at hdefined
    cases hdefined
  | some x =>
    rw [hentry] at hdefined
    rcases Option.isSome_iff_exists.mp hdefined with ⟨f, hf⟩
    have hget : r.get? handle = some f := by
      rw [Registry.get?, hentry]
      exact hf
    rcases exists_compile_of_get? h hget with ⟨s, -, hs, -⟩
    exact ⟨s, hs⟩

/-- Both registries are frozen or neither is, and their engines hold the same schemas. -/
theorem alike_ofRegistry (h : r.Renumbered π r') (hr : r.Movable) (o : Options) :
    Alike (Renumbered π) (ofRegistry o r) (ofRegistry o r') := by
  have hentries : ∀ {resources resources' : List (Option Resource)},
      (numbered r).mapM (fun x => resourceOf r.definedFlags x.1 x.2) = .ok resources →
        Reindexed π (Option.Rel (Resource.Linked π)) resources resources' →
          Alike (Reindexed π (Option.Rel (CompiledSchema.Alike (Counterpart π r.definedFlags))))
            (r.entries.mapM (entryOf ⟨r.definedFlags, resources.filterMap id⟩ o))
            (r'.entries.mapM (entryOf ⟨r'.definedFlags, resources'.filterMap id⟩ o)) := by
    intro resources resources' hresources hlinked
    have hmembers := h.entries.imp_of_mem
      (S := fun a b => Registry.Entry.Renumbered π a b ∧ a ∈ r.entries)
      (fun a b ha hab => ⟨hab, ha⟩)
    exact hmembers.alike_mapM h.injective (fun a b hab =>
      alike_entryOf (renumbered_context h hr hresources hlinked) o hab.1
        (fun f hf => hr.of_mem hab.2 hf))
  refine .of_exists (fun e he => ?_) (fun e' he' => ?_)
  · have hcompiled := fun (handle : Nat) hdefined =>
      @exists_entry?_of_defined r o e he handle hdefined
    rcases ofRegistry_eq_ok_iff.mp he with ⟨resources, entries, hresources, hcompile, hcycle, rfl⟩
    rcases (alike_resources h hr).exists_right hresources with ⟨resources', hresources', hlinked⟩
    rcases (hentries hresources hlinked).exists_right hcompile with ⟨entries', hcompile', hrelated⟩
    have hcycle' := (cycle?_of_reindexed hrelated h.injective).mp hcycle
    exact ⟨_, ofRegistry_eq_ok_iff.mpr ⟨resources', entries', hresources', hcompile', hcycle', rfl⟩,
      rfl, renumbered_context h hr hresources hlinked, hrelated, hcompiled⟩
  · rcases ofRegistry_eq_ok_iff.mp he' with
      ⟨resources', entries', hresources', hcompile', hcycle', rfl⟩
    rcases (alike_resources h hr).exists_left hresources' with ⟨resources, hresources, hlinked⟩
    rcases (hentries hresources hlinked).exists_left hcompile' with ⟨entries, hcompile, hrelated⟩
    have hcycle := (cycle?_of_reindexed hrelated h.injective).mpr hcycle'
    exact ⟨_, ofRegistry_eq_ok_iff.mpr ⟨resources, entries, hresources, hcompile, hcycle, rfl⟩⟩

namespace Renumbered

variable {e e' : Engine} (h : e.Renumbered π e')

include h

theorem entry? (handle : Nat) :
    Option.Rel (CompiledSchema.Alike (Counterpart π e.context.defined)) (e.entry? handle)
      (e'.entry? (π handle)) := by
  have hrel := h.entries.entries handle
  unfold Engine.entry?
  generalize e.entries[handle]? = x at hrel ⊢
  generalize e'.entries[π handle]? = y at hrel ⊢
  cases hrel with
  | none => exact .none
  | some hxy => exact hxy

/-- Engines of the same schemas under other handles walk in lockstep. -/
theorem lockstep : Lockstep e e' (Counterpart π e.context.defined) where
  options := h.options
  plan hn := by
    cases hn with
    | @plan _ p' types default required properties patterns additional leading items allOf applied =>
      exact ⟨p', rfl, (Counterpart.plan_iff.mp (.plan types default required properties patterns
        additional leading items allOf applied)).similar⟩
  resolved := by
    intro n n' hn hplan
    cases hn with
    | plan _ _ _ _ _ _ _ _ _ _ => exact absurd rfl (hplan _)
    | inline hroot he => exact ⟨_, _, rfl, rfl, hroot, he⟩
    | @deferred handle hdefined =>
      rcases h.compiled handle hdefined with ⟨s, hs⟩
      have hrel := h.entry? handle
      rw [hs] at hrel
      generalize hs' : e'.entry? (π handle) = x at hrel
      cases hrel with
      | some halike => exact ⟨_, _, hs, hs', halike⟩

end Renumbered

end Engine

end HttpContract

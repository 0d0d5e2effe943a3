/-
  Which requests lead to which.

  The keys in progress form a chain in which each leads to the next.  A chain has no name twice,
  so it is never longer than there are names.  What leads back to itself is never specialized:
  for definitions this is so already by name, for structs only with the same arguments.
-/
import Mathlib.Data.List.Perm.Subperm
import Mathlib.Logic.Relation
import QuantumStatics.Proofs.Specialization.Sessions

namespace QuantumStatics.Specialization

open Relation (ReflTransGen TransGen)

variable {T : SignatureTable} {D : Definitions} {K : Request → Prop} {c : Cache} {kind : Kind}
  {key : Key} {l : Location} {p : Plan} {N : Type} {chain : Chain}

/-! ## Keys that are told apart -/

/-- The texts of the keys tell requests of one kind apart. -/
def ToldApart (K : Request → Prop) : Prop :=
  ∀ r r', K r → K r' → r.kind = r'.kind → r.key.text = r'.key.text → r.key = r'.key

theorem Made.anywhere {s : Specialized} (h : Made T D c ⟨kind, key, l⟩ p s) (l' : Location) :
    ∃ p', Made T D c ⟨kind, key, l'⟩ p' s := by
  cases kind with
  | struct =>
    obtain ⟨decl, hd, hk, rfl⟩ := plan_struct_eq_ok.mp h.plan
    refine ⟨structPlan decl key l', plan_struct_eq_ok.mpr ⟨decl, hd, checkArgs_anywhere l' hk, rfl⟩,
      fun n hn => ?_, h.result⟩
    simp only [structPlan, structNeeds, List.mem_flatMap, List.mem_map] at hn
    obtain ⟨f, hf, key', hk', rfl⟩ := hn
    refine h.met (.request ⟨.struct, key', l⟩) ?_
    exact List.mem_flatMap.mpr ⟨f, hf, List.mem_map.mpr ⟨key', hk', rfl⟩⟩
  | definition =>
    obtain ⟨f, hf, hk, rfl⟩ := plan_definition_eq_ok.mp h.plan
    exact ⟨_, plan_definition_eq_ok.mpr ⟨f, hf, checkArgs_anywhere l' hk, rfl⟩, h.met, h.result⟩

theorem Built.made_for (h : Built T D K c) (ht : ToldApart K) {r : Request} (hr : K r)
    {s : Specialized} (hs : c.find? r.kind r.key.text = some s) : ∃ p, Made T D c r p s := by
  obtain ⟨⟨kind', key', l'⟩, p', hr', hkind, htext, hm⟩ := h.made hs
  have hkey : key' = r.key := ht _ _ hr' hr hkind htext
  obtain ⟨kind, key, l⟩ := r
  cases hkind
  cases hkey
  exact hm.anywhere l

/-! ## What leads to what -/

/-- What leads to what among requests of one kind.  Requests are the same to the graph if their keys
    have the same node. -/
structure Graph (T : SignatureTable) (D : Definitions) (kind : Kind) (N : Type) where
  node : Key → N
  edge : N → N → Prop
  edge_iff (r : Request) (p : Plan) (hk : r.kind = kind) (hp : r.plan T D = .ok p) (n : N) :
    edge (node r.key) n ↔ ∃ r', .request r' ∈ p.needs ∧ r'.kind = kind ∧ node r'.key = n

/-- Structs mention structs in their fields. -/
def structGraph (T : SignatureTable) (D : Definitions) : Graph T D .struct Key where
  node := id
  edge key key' := ∃ decl, T.findStruct? key.name = some decl ∧
    ∃ f ∈ fieldsFor decl key, key' ∈ f.type.structKeys
  edge_iff := by
    rintro ⟨_, key, l⟩ p rfl hp key'
    obtain ⟨decl, hd, _, rfl⟩ := plan_struct_eq_ok.mp hp
    simp only [structPlan, structNeeds, List.mem_flatMap, List.mem_map]
    constructor
    · rintro ⟨decl', hd', f, hf, hk⟩
      cases hd.symm.trans hd'
      exact ⟨_, ⟨f, hf, key', hk, rfl⟩, rfl, rfl⟩
    · rintro ⟨r', ⟨f, hf, k, hk, h⟩, _, rfl⟩
      cases h
      exact ⟨decl, hd, f, hf, hk⟩

/-- Definitions call definitions. -/
def callGraph (T : SignatureTable) (D : Definitions) : Graph T D .definition String where
  node := Key.name
  edge name name' := ∃ f, D.get? name = some f ∧
    ∃ call ∈ f.calls, D.contains call.callee ∧ call.callee = name'
  edge_iff := by
    rintro ⟨_, key, l⟩ p rfl hp name'
    obtain ⟨f, hf, _, rfl⟩ := plan_definition_eq_ok.mp hp
    simp only [definitionPlan, request_mem_definitionNeeds, Typed.Function.mem_calls]
    constructor
    · rintro ⟨f', hf', call, ⟨l', hc⟩, hd, rfl⟩
      cases hf.symm.trans hf'
      exact ⟨_, .inr ⟨l', call, hc, hd, rfl⟩, rfl, rfl⟩
    · rintro ⟨r', ⟨_, _, _, _, _, rfl⟩ | ⟨l', call, hc, hd, rfl⟩, hk, rfl⟩
      · cases hk
      · exact ⟨f, hf, call, ⟨l', hc⟩, hd, rfl⟩

namespace Graph

variable {kind : Kind} {N : Type} (G : Graph T D kind N)

/-- Keys with one text have one node. -/
def TellsApart (K : Request → Prop) : Prop :=
  ∀ r r', K r → K r' → r.kind = kind → r'.kind = kind → r.key.text = r'.key.text →
    G.node r.key = G.node r'.key

/-- A node of something in the cache. -/
def Cached (K : Request → Prop) (c : Cache) (n : N) : Prop :=
  ∃ r, K r ∧ r.kind = kind ∧ G.node r.key = n ∧ ∃ s, c.find? kind r.key.text = some s

variable {G}

theorem made_of_cached (ht : G.TellsApart K) (hc : Built T D K c) {n : N} (h : G.Cached K c n) :
    ∃ r p s, K r ∧ r.kind = kind ∧ G.node r.key = n ∧ Made T D c r p s := by
  obtain ⟨r, hr, hk, rfl, s, hs⟩ := h
  obtain ⟨r', p, hr', hk', htext, hm⟩ := hc.made hs
  exact ⟨r', p, s, hr', hk', ht r' r hr' hr hk' hk htext, hm⟩

theorem cached_of_edge (hK : ClosedUnderNeeds T D K) (ht : G.TellsApart K) (hc : Built T D K c)
    {n n' : N} (h : G.Cached K c n) (he : G.edge n n') : G.Cached K c n' := by
  obtain ⟨r, p, s, hr, hk, rfl, hm⟩ := made_of_cached ht hc h
  obtain ⟨r', hr', hk', rfl⟩ := (G.edge_iff r p hk hm.plan n').mp he
  exact ⟨r', hK r p r' hr hm.plan hr', hk', rfl, hk' ▸ hm.met _ hr'⟩

theorem cached_of_leads (hK : ClosedUnderNeeds T D K) (ht : G.TellsApart K) (hc : Built T D K c)
    {n n' : N} (h : G.Cached K c n) (hl : ReflTransGen G.edge n n') : G.Cached K c n' := by
  induction hl with
  | refl => exact h
  | tail _ he ih => exact cached_of_edge hK ht hc ih he

theorem not_leads_to_itself (hK : ClosedUnderNeeds T D K) (ht : G.TellsApart K)
    (hc : Built T D K c) {n : N} (h : G.Cached K c n) : ¬TransGen G.edge n n := by
  induction hc with
  | empty =>
    obtain ⟨r, _, _, _, s, hs⟩ := h
    cases kind <;> cases hs
  | @keep c r p s hc hr hm ih =>
    by_cases hn : G.Cached K c n
    · exact ih hn
    -- otherwise `n` is the node of what is kept, and all that it leads to was there before
    have hnew : r.kind = kind ∧ G.node r.key = n := by
      obtain ⟨hk, htext⟩ := kept_by_request hm.plan hm.result
      obtain ⟨r', hr', hk', rfl, s', hs'⟩ := h
      rw [Cache.find?_keep] at hs'
      split at hs'
      · next heq =>
        have hkind : r.kind = kind := hk.symm.trans heq.1.symm
        exact ⟨hkind, ht r r' hr hr' hkind hk' (htext.symm.trans heq.2.symm)⟩
      · exact (hn ⟨r', hr', hk', rfl, s', hs'⟩).elim
    obtain ⟨hkind, rfl⟩ := hnew
    intro hl
    obtain ⟨n', he, hl⟩ := TransGen.head'_iff.mp hl
    obtain ⟨r', hr', hk', rfl⟩ := (G.edge_iff r p hkind hm.plan n').mp he
    have hcached : G.Cached K c (G.node r'.key) :=
      ⟨r', hK r p r' hr hm.plan hr', hk', rfl, hk' ▸ hm.met _ hr'⟩
    exact hn (cached_of_leads hK ht hc hcached hl)

end Graph

theorem ToldApart.tellsApart (h : ToldApart K) (G : Graph T D kind N) :
    G.TellsApart K := fun r r' hr hr' hk hk' htext =>
  congrArg G.node (h r r' hr hr' (hk.trans hk'.symm) htext)

/-! ## Chains -/

theorem enter_eq_ok {chain' : Chain} (h : enter chain key l = .ok chain') :
    (∀ k ∈ chain, k.name ≠ key.name) ∧ chain' = chain ++ [key] := by
  rw [enter] at h
  split at h
  · cases h
  · next hn =>
    cases h
    exact ⟨by simpa using hn, rfl⟩

theorem enter_eq_error {e : Failure} (h : enter chain key l = .error e) :
    ∃ k ∈ chain, k.name = key.name ∧ (k.text = key.text ∨
      e = .rejected ⟨.reenters (chain.map Key.text) key.text key.name, l⟩) := by
  rw [enter] at h
  split at h
  · next k hk =>
    refine ⟨k, List.mem_of_find?_eq_some hk, by simpa using List.find?_some hk, ?_⟩
    by_cases hkt : k.text = key.text
    · exact .inl hkt
    · rw [if_neg hkt] at h
      cases h
      exact .inr rfl
  · cases h

/-- All keys of a chain have been asked for and lead to a key. -/
structure Graph.Path {kind : Kind} {N : Type} (G : Graph T D kind N) (K : Request → Prop)
    (chain : Chain) (key : Key) : Prop where
  asked : ∀ k ∈ chain, ∃ l, K ⟨kind, k, l⟩
  leads : ∀ k ∈ chain, TransGen G.edge (G.node k) (G.node key)

theorem Graph.Path.nil (G : Graph T D kind N) (key : Key) : G.Path K [] key := ⟨nofun, nofun⟩

theorem Graph.Path.push {G : Graph T D kind N} {r r' : Request} (h : G.Path K chain r.key)
    (hr : K r) (hk : r.kind = kind) (hp : r.plan T D = .ok p) (hr' : .request r' ∈ p.needs)
    (hk' : r'.kind = kind) : G.Path K (chain ++ [r.key]) r'.key := by
  have he : G.edge (G.node r.key) (G.node r'.key) :=
    (G.edge_iff r p hk hp _).mpr ⟨r', hr', hk', rfl⟩
  constructor
  · intro k hmem
    rcases List.mem_append.mp hmem with hmem | hmem
    · exact h.asked k hmem
    · cases List.mem_singleton.mp hmem
      exact ⟨r.location, hk ▸ hr⟩
  · intro k hmem
    rcases List.mem_append.mp hmem with hmem | hmem
    · exact (h.leads k hmem).tail he
    · cases List.mem_singleton.mp hmem
      exact .single he

theorem mem_keys_of_get? {α : Type} {d : Dict String α} {k : String} {v : α}
    (h : d.get? k = some v) : k ∈ d.keys := by
  obtain ⟨es, _⟩ := d
  simp only [Dict.get?, Dict.keys] at h ⊢
  obtain ⟨l₁, l₂, rfl, _⟩ := List.lookup_eq_some_iff.mp h
  simp

theorem struct_known (hp : Request.plan T D ⟨.struct, key, l⟩ = .ok p) :
    key.name ∈ T.structs.keys := by
  obtain ⟨decl, hd, _, _⟩ := plan_struct_eq_ok.mp hp
  exact mem_keys_of_get? hd

theorem definition_known (hp : Request.plan T D ⟨.definition, key, l⟩ = .ok p) :
    key.name ∈ D.keys := by
  obtain ⟨f, hf, _, _⟩ := plan_definition_eq_ok.mp hp
  exact mem_keys_of_get? hf

/-- A chain of different names for which a bound on the number of further ones is large enough. -/
structure Fits (names : List String) (bound : Nat) (chain : Chain) : Prop where
  nodup : (chain.map Key.name).Nodup
  known : ∀ k ∈ chain, k.name ∈ names
  room : names.length ≤ chain.length + bound

theorem Fits.nil (names : List String) : Fits names names.length [] :=
  ⟨.nil, nofun, by simp⟩

theorem Fits.push {names : List String} {bound : Nat} {chain : Chain} {key : Key}
    (h : Fits names (bound + 1) chain) (hn : ∀ k ∈ chain, k.name ≠ key.name)
    (hk : key.name ∈ names) : Fits names bound (chain ++ [key]) where
  nodup := by
    rw [List.map_append, List.nodup_append]
    refine ⟨h.nodup, by simp, ?_⟩
    rintro _ hmem _ hkey rfl
    obtain ⟨k, hk, hname⟩ := List.mem_map.mp hmem
    exact hn k hk (hname.trans (List.mem_singleton.mp hkey))
  known := by
    intro k hmem
    rcases List.mem_append.mp hmem with hmem | hmem
    · exact h.known k hmem
    · cases List.mem_singleton.mp hmem
      exact hk
  room := by
    have := h.room
    simp only [List.length_append, List.length_singleton]
    omega

theorem Fits.full {names : List String} (h : Fits names 0 chain) {name : String}
    (hn : name ∈ names) : ∃ k ∈ chain, k.name = name := by
  by_contra hnot
  have hnodup : (name :: chain.map Key.name).Nodup := by
    refine List.nodup_cons.mpr ⟨fun hmem => ?_, h.nodup⟩
    obtain ⟨k, hk, hname⟩ := List.mem_map.mp hmem
    exact hnot ⟨k, hk, hname⟩
  have hsub : name :: chain.map Key.name ⊆ names := by
    refine List.cons_subset.mpr ⟨hn, fun _ hmem => ?_⟩
    obtain ⟨k, hk, rfl⟩ := List.mem_map.mp hmem
    exact h.known k hk
  have hlength := (List.subperm_of_subset hnodup hsub).length_le
  have hroom := h.room
  simp only [List.length_cons, List.length_map] at hlength
  omega

end QuantumStatics.Specialization

import Fckdb.Lib.Traces
import Fckdb.Moves

/-! # The names of new objects

Every PUT of a new object is answered with a UUID of its own. A compaction puts each UUID it draws into
one name, so the objects of the shards it builds have different names, in whatever order the PUTs of
its parts are made. -/

namespace Fckdb

open Prog

/-! ## What is drawn -/

/-- The UUID that an answer gives. -/
def drawn : Event Request Request.Answer → List Nat
  | ⟨.putNew _ _, .ok uuid⟩ => [uuid]
  | _ => []

/-- Different UUIDs, each of an object that was written. -/
def NewUuids (uuids : List Nat) (s : Store) : Prop := uuids.Nodup ∧ ∀ u ∈ uuids, u < s.puts.length

/-- A request writes an object and gives its UUID, or does neither. -/
theorem drawn_of_exec {t : Nat} {s s' : Store} {r : Request} {c : Choice} {x : r.Answer}
    (h : s.exec t r c = some (s', x)) :
    (drawn ⟨r, x⟩ = [s.puts.length] ∧ s'.puts.length = s.puts.length + 1) ∨
      drawn ⟨r, x⟩ = [] ∧ s'.puts.length = s.puts.length := by
  cases r with
  | putNew path blob =>
      cases c <;> cases h
      · exact .inl ⟨rfl, by rw [List.length_append, List.length_singleton]⟩
      · exact .inr ⟨rfl, rfl⟩
  | _ =>
      refine .inr ⟨rfl, ?_⟩
      cases c <;> simp only [Store.exec, reduceCtorEq] at h <;> (repeat' split at h) <;>
        cases h <;> rfl

theorem NewUuids.exec {t : Nat} {uuids : List Nat} {s s' : Store} {r : Request} {c : Choice}
    {x : r.Answer} (h : NewUuids uuids s) (hx : s.exec t r c = some (s', x)) :
    NewUuids (uuids ++ drawn ⟨r, x⟩) s' := by
  rcases drawn_of_exec hx with ⟨hd, hlen⟩ | ⟨hd, hlen⟩
  · rw [hd]
    refine ⟨List.nodup_append.mpr ⟨h.1, List.nodup_singleton _, fun u hu v hv => ?_⟩, fun u hu => ?_⟩
    · rw [List.mem_singleton.mp hv]
      exact (h.2 u hu).ne
    · rw [hlen]
      rcases List.mem_append.mp hu with hu | hu
      · exact Nat.lt_succ_of_lt (h.2 u hu)
      · exact List.mem_singleton.mp hu ▸ Nat.lt_succ_self _
  · rw [hd, List.append_nil]
    exact ⟨h.1, fun u hu => hlen ▸ h.2 u hu⟩

theorem NewUuids.stable {t : Nat} (uuids : List Nat) : Stable (Rely t) (NewUuids uuids) :=
  fun _ _ hg h => ⟨h.1, fun u hu => (h.2 u hu).trans_le hg.puts.length_le⟩

/-! ## Programs that may fail -/

/-- The tokens of a result; an error has none. -/
def okTokens {α : Type} (tokens : α → List Nat) : Except Error α → List Nat
  | .ok a => tokens a
  | .error _ => []

namespace Proc

variable {α β : Type} {held : List Nat} {tokens : α → List Nat} {tokens' : β → List Nat}

/-- The UUIDs of the result are held from the start or drawn on the way. -/
abbrev Draws (held : List Nat) (tokens : α → List Nat) (p : Proc α) : Prop :=
  Prog.Draws drawn held (okTokens tokens) p

theorem Draws.seq {p : Proc α} {f : α → Proc β} (h : p.Draws held tokens)
    (hf : ∀ a, (f a).Draws (tokens a) tokens') : (p.andThen f).Draws held tokens' :=
  Prog.Draws.tryBind h hf fun _ => rfl

theorem Draws.ret {a : α} (h : (tokens a).Subperm held) : (Proc.ret a).Draws held tokens :=
  Prog.Draws.done h

/-- A computation without requests keeps what is held. -/
theorem Draws.ofExcept {r : Except Error α} : (Proc.ofExcept r).Draws held fun _ => held := by
  cases r with
  | ok a => exact .done (List.Subperm.refl _)
  | error e => exact .done List.nil_subperm

/-- What else is held is still held. -/
theorem Draws.keep {p : Proc α} (more : List Nat) (h : p.Draws [] tokens) :
    p.Draws more fun a => more ++ tokens a := by
  intro tr r hrun
  cases r with
  | error e => exact List.nil_subperm
  | ok a => exact (List.subperm_append_left more).mpr (h tr _ hrun)

/-- The results of parts hold what the parts' results hold. -/
theorem flatMap_collect {rs : List (Except Error α)} {as : List α} (h : collect rs = .ok as) :
    as.flatMap tokens = rs.flatMap (okTokens tokens) := by
  replace h := collect_eq_ok h
  induction h with
  | nil => rfl
  | cons hr _ ih => rw [List.flatMap_cons, List.flatMap_cons, ih, hr, okTokens]

/-- **`join_all`**: each part draws the UUIDs of its own result. -/
theorem Draws.tryJoinAll {ps : List (Proc α)} (h : ∀ p ∈ ps, p.Draws [] tokens) :
    (Proc.tryJoinAll ps).Draws [] fun as => as.flatMap tokens := by
  have hjoin : (Proc.joinAll ps).Draws [] fun rs => rs.flatMap (okTokens tokens) :=
    (Prog.Draws.joinAll (fun _ => rfl) h).bind fun rs => .done (List.Subperm.refl _)
  refine hjoin.seq fun rs => ?_
  cases hrs : collect rs with
  | error e => exact .done List.nil_subperm
  | ok as => exact .done (flatMap_collect hrs ▸ List.Subperm.refl _)

end Proc

/-! ## Shards -/

/-- The UUIDs in the names of the objects of a shard. -/
def Shard.uuids (shard : Shard) : List Nat := shard.objects.map ObjectName.uuid

theorem uuids_indexed (seg : SegmentEntry) (i : IndexMeta) :
    Shard.uuids ⟨[seg], some i⟩ = seg.name.uuid :: i.objects.map DataName.uuid := by
  rw [Shard.uuids, Shard.objects, Option.toList_some, List.flatMap_singleton, List.map_append,
    List.map_map, List.map_map]
  rfl

/-- The names that stand beside keys. -/
theorem map_snd_zip_eq_take {α β : Type} (ks : List α) (ns : List β) :
    (ks.zip ns).map (·.2) = ns.take ks.length := by
  induction ks generalizing ns with
  | nil => rfl
  | cons k ks ih =>
      cases ns with
      | nil => rfl
      | cons n ns => rw [List.zip_cons_cons, List.map_cons, ih, List.length_cons, List.take_succ_cons]

section Built

variable [Crates]

/-- The objects of an index are some of what was written for it. -/
theorem objects_indexMeta_subperm (docs : List Doc) (dim bytes : Nat) (groups : List (List Doc))
    (schema : Schema) (centroids : DataName) (names : List DataName) :
    (indexMeta docs dim bytes groups schema centroids names).objects.Subperm (centroids :: names) := by
  have hzip (ks : List String) (ns : List DataName) :
      (SortedMap.ofList (ks.zip ns)).values.Subperm (ns.take ks.length) :=
    map_snd_zip_eq_take ks ns ▸ SortedMap.values_ofList_subperm _
  have hids (ns : List DataName) : ns.head?.toList.Subperm (ns.take 1) := by
    cases ns <;> exact List.Subperm.refl _
  -- consecutive slices of a list, each after what the one before took
  have hslice {k : Nat} {as bs ns : List DataName} (ha : as.Subperm (ns.take k))
      (hb : bs.Subperm (ns.drop k)) : (as ++ bs).Subperm ns := by
    have := ha.append hb
    rwa [List.take_append_drop] at this
  simp only [IndexMeta.objects, indexMeta, List.cons_append, List.append_assoc]
  refine (List.subperm_cons _).mpr (hslice (List.Subperm.refl _) (hslice (hids _) (hslice (hzip _ _)
    (hslice (hzip _ _) ?_))))
  rw [← List.drop_drop]
  exact (hzip _ _).trans (List.take_sublist _ _).subperm

omit [Crates] in
theorem draws_putData (w : Write) : (putData w).Draws [] fun name => [name.uuid] := by
  have hput : (putNew (fun u => .data ⟨u, w.ext⟩) w.blob).Draws [] fun uuid => [uuid] := by
    intro tr x hrun
    have h := @Prog.Draws.call _ _ _ drawn (.putNew (fun u => .data ⟨u, w.ext⟩) w.blob) tr x hrun
    cases x with
    | ok uuid => exact h
    | error e => exact h
  exact hput.seq fun _ => .ret (List.Subperm.refl _)

/-- **Building a shard** draws the UUIDs of its objects. -/
theorem draws_buildShard (docs : List Doc) (buildIndex : Bool) (schema : Schema) :
    (buildShard docs buildIndex schema).Draws [] Shard.uuids := by
  cases docs with
  | nil => exact .ret List.nil_subperm
  | cons first rest =>
      refine (draws_putData _).seq fun seg => ?_
      cases buildIndex with
      | false => exact .ret (List.Subperm.refl _)
      | true =>
          refine Proc.Draws.ofExcept.seq ?_
          rintro ⟨flat, groups⟩
          refine ((draws_putData _).keep _).seq fun centroids => ?_
          have hnames : (Proc.tryJoinAll ((indexWrites (first :: rest) groups schema).map
              putData)).Draws [] fun names => names.flatMap fun name => [name.uuid] := by
            refine Proc.Draws.tryJoinAll fun p hp => ?_
            obtain ⟨w, -, rfl⟩ := List.mem_map.mp hp
            exact draws_putData w
          refine (hnames.keep _).seq fun names => .ret ?_
          obtain ⟨l, hperm, hsub⟩ := objects_indexMeta_subperm (first :: rest) first.vector.length
            (indexBytes (first :: rest) flat groups schema) groups schema centroids names
          rw [uuids_indexed, ← List.map_eq_flatMap]
          exact (List.subperm_cons _).mpr
            ⟨l.map DataName.uuid, hperm.map DataName.uuid, hsub.map DataName.uuid⟩

end Built

/-! ## In a compaction -/

section Calmly

variable [Crates] [HashOrder] {ok : Terms} {t : Nat} {α : Type} {P : Store → Prop}
  {Q : α → Store → Prop} {tokens : α → List Nat}

/-- **The UUIDs that a calm program draws** are different. -/
theorem Calmly.nodup {p : Proc α} (h : Calmly ok t P p Q) (hp : p.Draws [] tokens) :
    Calmly ok t P p fun a s => Q a s ∧ (tokens a).Nodup := by
  have hruns := Prog.Triple.draws (I := NewUuids) (fun s => ⟨List.nodup_nil, nofun⟩)
    (NewUuids.stable (t := t)) (fun l s r s' x hl hx => ?_) hp h
  · refine hruns.conseq (fun _ h => h) ?_
    rintro (e | a) s ⟨hs, l, hsub, hl⟩
    · trivial
    · obtain ⟨l', hperm, hsub⟩ := hsub
      exact ⟨hs, hperm.nodup_iff.mp (hl.1.sublist hsub)⟩
  · obtain ⟨-, c, hx⟩ := hx
    exact hl.exec hx

omit [Crates] [HashOrder] in
theorem nodup_objects {shards : List Shard} (h : (shards.flatMap Shard.uuids).Nodup) :
    (shards.flatMap Shard.objects).Nodup := by
  refine List.Nodup.of_map ObjectName.uuid ?_
  rwa [List.map_flatMap]

end Calmly

end Fckdb

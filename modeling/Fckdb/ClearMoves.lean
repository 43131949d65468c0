import Fckdb.CommitMoves

/-! # The moves of a collection and of a destroy

Neither writes a manifest. A collection deletes what it found unreferenced and old; a destroy deletes the
manifest and what its listing turned up. -/

namespace Fckdb

open Prog

variable [Crates] [HashOrder] {ok : Terms} {t : Nat} {call : Call} {α β : Type} {P R : Store → Prop}
  {Q : α → Store → Prop} {Q' : β → Store → Prop} {E : Store → Prop}

/-! ## Collections -/

/-- What a listing yields is there, with its time. -/
theorem Calmly.nextEntry (sub : Sub) :
    Calmly ok t (fun _ => True) (Fckdb.nextEntry sub) fun e s =>
      ∃ p, s.written e.1 = some p ∧ p.time = e.2 := by
  refine Calmly.ask (r := .next sub) stable_true
    (stable_ends (fun e s s' h hx => ?_) stable_true) ?_
  · obtain ⟨p, hp, hpt⟩ := hx
    exact ⟨p, h.written hp, hpt⟩
  · rintro s c s' x - hx
    cases c with
    | entry name =>
        rw [Store.exec] at hx
        cases hp : s.object name with
        | none =>
            rw [hp] at hx
            cases hx
        | some p =>
            rw [hp] at hx
            dsimp only at hx
            split_ifs at hx
            cases hx
            refine ⟨rfl, p, ?_, rfl⟩
            rw [Store.object] at hp
            split_ifs at hp
            exact hp
    | fail msg =>
        cases hx
        exact ⟨rfl, trivial⟩
    | _ => cases hx

theorem Calmly.listSub (sub : Sub) :
    Calmly ok t (fun _ => True) (Fckdb.listSub sub) fun _ _ => True := by
  refine Calmly.ask (r := .list sub) stable_true (stable_ends (fun _ => stable_true) stable_true) ?_
  rintro s c s' x - hx
  cases c <;> cases hx
  · exact ⟨rfl, trivial⟩
  · exact ⟨rfl, trivial⟩

/-- What a collection has doomed is unreferenced, and was written by the cutoff. -/
def Doomed (referenced : List ObjectName) (cutoff : Int) (w : Sweep) (s : Store) : Prop :=
  ∀ name ∈ w.doomed, name ∉ referenced ∧ ∃ p, s.written name = some p ∧ (p.time : Int) ≤ cutoff

omit [HashOrder] [Crates] in
theorem stable_doomed (referenced : List ObjectName) (cutoff : Int) (w : Sweep) :
    Stable (Rely t) (Doomed referenced cutoff w) := by
  intro s s' h hs name hname
  obtain ⟨hr, p, hp, hc⟩ := hs name hname
  exact ⟨hr, p, h.written hp, hc⟩

omit [HashOrder] [Crates] in
/-- Judging one more entry. -/
theorem Doomed.judge {referenced : List ObjectName} {cutoff : Int} {w : Sweep} {s : Store}
    (h : Doomed referenced cutoff w s) {entry : ObjectName × Nat} {p : Put}
    (hp : s.written entry.1 = some p) (ht : p.time = entry.2) :
    Doomed referenced cutoff (w.judge referenced cutoff entry) s := by
  intro name hname
  simp only [Sweep.judge] at hname
  split_ifs at hname with hr hc
  · exact h name hname
  · exact h name hname
  · rcases List.mem_append.mp hname with hname | hname
    · exact h name hname
    · obtain rfl := List.mem_singleton.mp hname
      exact ⟨hr, p, hp, ht ▸ not_lt.mp hc⟩

theorem Calmly.sweep (sub : Sub) (referenced : List ObjectName) (cutoff : Int) (w : Sweep) :
    Calmly ok t (Doomed referenced cutoff w) (Fckdb.sweep sub referenced cutoff w) fun w' s =>
      Doomed referenced cutoff w' s := by
  have hentries : ∀ left w, Calmly ok t (Doomed referenced cutoff w)
      (sweepEntries sub referenced cutoff left w) fun w' s => Doomed referenced cutoff w' s := by
    intro left
    induction left with
    | zero => exact fun w => ret (stable_doomed _ _ _) fun _ h => h
    | succ left ih =>
        intro w
        refine after (stable_doomed _ _ _) (Calmly.nextEntry sub) (fun _ _ => trivial) fun entry => ?_
        refine (ih (w.judge referenced cutoff entry)).conseq (fun s h => ?_) fun _ _ h => h
        obtain ⟨⟨p, hp, ht⟩, hw⟩ := h
        exact hw.judge hp ht
  refine after (stable_doomed _ _ _) (Calmly.listSub sub) (fun _ _ => trivial) fun entries => ?_
  exact (hentries entries w).conseq (fun _ h => h.2) fun _ _ h => h

/-- The clock read `time` for the cutoff of a collection that works from `loaded`. -/
def CutoffRead (ok : Terms) (t : Nat) (loaded : Manifest) (version : Option Nat) (time : Nat)
    (s : Store) : Prop :=
  ∃ s₀, s₀.At loaded version ∧ Grows (fun _ => True) s₀ s ∧ time = s₀.clock ∧
    ok.op t s₀ (.now (.cutoff loaded))

omit [HashOrder] [Crates] in
theorem stable_cutoffRead (loaded : Manifest) (version : Option Nat) (time : Nat) :
    Stable (Rely t) (CutoffRead ok t loaded version time) := by
  rintro s s' h ⟨s₀, hat, hg, hx⟩
  exact ⟨s₀, hat, hg.trans (h.mono fun _ _ => trivial), hx⟩

/-- A step of a thread that writes no manifest. -/
def Clears (ok : Terms) (t : Nat) (call : Call) (s s' : Store) : Prop :=
  Grows (fun _ => False) s s' ∧ Move ok t call s s'

/-- Deletions side by side. -/
theorem Clears.tryJoinAll {ι : Type} {is : List ι} {body : ι → Proc Unit}
    (h : ∀ i ∈ is, Triple (service.Answers ok t) (Rely t) (Clears ok t call) P (body i)
      fun _ _ => True) :
    Triple (service.Answers ok t) (Rely t) (Clears ok t call) P (Proc.tryJoinAll (is.map body))
      fun _ _ => True := by
  have hparts := tryJoinAll_yields (Q := fun _ _ _ => True) (fun s => Grows.refl s) (fun _ _ _ => Grows.trans)
    (fun _ _ (h : Clears ok t call _ _) => h.1.mono fun _ => False.elim) (fun a b x hx => ?_)
    (fun _ _ => stable_true) fun i hi => (h i hi).conseq (fun _ h => h) fun _ _ _ _ _ => trivial
  · exact hparts.conseq (fun _ h => h) fun _ _ _ => trivial
  · obtain ⟨-, c, hx⟩ := hx
    cases c <;> cases hx
    exact ⟨rfl, .refl a, (Calm.refl a).guar.2⟩

/-- A part that writes no manifest, in a call that has written none. -/
theorem Does.ofClears {p : Proc α} (h : Triple (service.Answers ok t) (Rely t) (Clears ok t call) P p
    fun _ _ => True) :
    Does ok t call (fun s => P s ∧ Idle t s) p (fun _ s => Idle t s) (Idle t) := by
  refine ((h.frame stable_idle fun _ _ (h : Clears _ _ _ _ _) => h.1.mono fun _ => False.elim).weaken
    fun _ _ h => ⟨h.1.mono fun _ => False.elim, h.2⟩).conseq (fun _ h => h) ?_
  rintro (e | a) s h
  · exact h.2
  · exact h.2

/-- The deletion of a doomed object. -/
theorem doomed_triple {handle grace time : Nat} (hcall : call = .gc handle grace)
    {loaded : Manifest} {version : Option Nat} {w : Sweep} {name : ObjectName}
    (hname : name ∈ w.doomed) :
    Triple (service.Answers ok t) (Rely t) (Clears ok t call)
      (fun s => CutoffRead ok t loaded version time s ∧
        Doomed loaded.referenced ((time : Int) - fromStd grace) w s)
      (Fckdb.deleteObject name) fun _ _ => True := by
  refine Triple.call (Request.delete name) ((stable_cutoffRead _ _ _).and (stable_doomed _ _ _))
    (fun _ => stable_true) ?_
  rintro s s' x ⟨⟨s₀, hat, hg, rfl, hok⟩, hdoomed⟩ ⟨-, c, hx⟩
  obtain ⟨hr, p, hp, hold⟩ := hdoomed name hname
  cases c <;> cases hx
  · refine ⟨⟨Grows.of_eq rfl List.prefix_rfl (List.prefix_append _ _) (Nat.le_refl _)
      (le_max_left _ _) List.prefix_rfl (Nat.le_refl _) rfl rfl, ?_⟩, trivial⟩
    exact .delete handle grace loaded version s₀ name p hcall hg hat hok hr hp hold rfl
  · exact ⟨⟨.refl s, (Calm.refl s).guar.2⟩, trivial⟩

/-- **A collection.** -/
theorem Does.gc {handle grace : Nat} (hcall : call = .gc handle grace) :
    Does ok t call (Idle t) (Fckdb.gc handle grace) (fun _ s => Idle t s) (Idle t) := by
  have hidle := stable_idle (t := t)
  refine .after hidle (Calmly.load handle 0) (fun _ _ => Nat.zero_le _) (fun _ h => h) ?_
  rintro ⟨m, version⟩
  have hloaded : Stable (Rely t) fun s => (s.At m version ∧ s.Since 0 version) ∧ Idle t s :=
    Stable.and (fun _ _ h hs => ⟨h.keeps_at hs.1, h.since hs.2⟩) hidle
  refine .afterSure (Q := CutoffRead ok t m version) hloaded
    (Calmly.now (.cutoff m) (stable_at m version)) (fun _ h => h.1.1) fun time => ?_
  have hcut : Stable (Rely t) fun s => CutoffRead ok t m version time s ∧
      (s.At m version ∧ s.Since 0 version) ∧ Idle t s := (stable_cutoffRead _ _ _).and hloaded
  dsimp only
  split_ifs with hmin
  · exact .fail hcut fun _ h => h.2.2
  refine .after hcut ((Calmly.sweep .wal m.referenced _ {}).conseq (fun _ _ => nofun) fun _ _ h => h)
    (fun _ h => h) (fun _ h => h.2.2) fun w₁ => ?_
  have hw₁ := (stable_doomed (t := t) m.referenced ((time : Int) - fromStd grace) w₁).and hcut
  refine .after hw₁ (Calmly.sweep .data m.referenced _ w₁) (fun _ h => h.1) (fun _ h => h.2.2.2)
    fun w₂ => ?_
  -- deletions are the only steps that are not calm
  refine .seq (Q := fun _ s => Idle t s) ?_ fun _ => .ret hidle fun _ h => h
  exact (Does.ofClears (Clears.tryJoinAll fun name => doomed_triple hcall)).conseq
    (fun s h => ⟨⟨h.2.2.1, h.1⟩, h.2.2.2.2⟩) fun _ _ h => h

/-! ## Destroying -/

/-- DELETE of the manifest. -/
theorem deleteManifest_triple {handle : Nat} (hcall : call = .destroy handle) :
    Triple (service.Answers ok t) (Rely t) (Clears ok t call) Store.Sound
      (request .deleteManifest : Proc Unit) fun _ _ => True := by
  refine Triple.call Request.deleteManifest (fun _ _ h => h.sound) (fun _ => stable_true) ?_
  rintro s s' x hs ⟨hok, c, hx⟩
  cases c <;> cases hx
  · refine ⟨⟨Grows.of_eq rfl List.prefix_rfl List.prefix_rfl hs.dropped (le_max_right _ _)
      List.prefix_rfl (Nat.le_refl _) rfl rfl, ?_⟩, trivial⟩
    exact .drop handle hcall hok rfl
  · exact ⟨⟨.refl s, (Calm.refl s).guar.2⟩, trivial⟩

theorem Calmly.listAll :
    Calmly ok t (fun _ => True) (request .listAll : Proc Nat) fun _ _ => True := by
  refine Calmly.ask (r := .listAll) stable_true (stable_ends (fun _ => stable_true) stable_true) ?_
  rintro s c s' x - hx
  cases c <;> cases hx
  · exact ⟨rfl, trivial⟩
  · exact ⟨rfl, trivial⟩

/-- The objects among the entries were listed. -/
def Turned (entries : List (Option ObjectName)) (s : Store) : Prop :=
  ∀ name, some name ∈ entries → name ∈ s.listed

omit [HashOrder] [Crates] in
theorem stable_turned (entries : List (Option ObjectName)) : Stable (Rely t) (Turned entries) :=
  fun _ _ h hs name hname => h.listed.subset (hs name hname)

omit [HashOrder] [Crates] in
/-- A step of a thread that writes no manifest keeps it idle. -/
theorem Grows.idle {s s' : Store} (h : Grows (fun _ => False) s s') (hs : Idle t s) : Idle t s' :=
  ⟨h.sound hs.1, (h.writtenBy id).trans hs.2⟩

/-- The next entry of a listing of the whole namespace. -/
theorem Does.nextAny {handle : Nat} (hcall : call = .destroy handle)
    (doomed : List (Option ObjectName)) :
    Does ok t call (fun s => Turned doomed s ∧ Idle t s) (request .nextAny : Proc (Option ObjectName))
      (fun entry s => Turned (doomed ++ [entry]) s ∧ Idle t s) (Idle t) := by
  have hstable (entries) : Stable (Rely t) fun s => Turned entries s ∧ Idle t s :=
    (stable_turned entries).and stable_idle
  refine Triple.call Request.nextAny (hstable doomed)
    (stable_ends (fun entry => hstable _) stable_idle) ?_
  rintro s s' x ⟨hturned, hidle⟩ ⟨hok, c, hx⟩
  cases c with
  | fail msg =>
      cases hx
      exact ⟨Calm.guar (Calm.refl _), hidle⟩
  | entry name =>
      have hx : (if (s.object name).isSome = true then
          some ({ s with listed := s.listed ++ [name] }, Except.ok (some name)) else none) =
          some (s', x) := hx
      split_ifs at hx with hthere
      cases hx
      have hgrows : Grows (fun _ => False) s { s with listed := s.listed ++ [name] } :=
        Grows.of_eq rfl List.prefix_rfl List.prefix_rfl (Nat.le_refl _) (le_max_left _ _)
          (List.prefix_append _ _) (Nat.le_refl _) rfl rfl
      refine ⟨⟨hgrows.mono fun _ => False.elim, .list handle name hcall hok hthere rfl⟩,
        fun other hother => ?_, hgrows.idle hidle⟩
      rcases List.mem_append.mp hother with hother | hother
      · exact List.mem_append_left _ (hturned other hother)
      · obtain rfl := Option.some.inj (List.mem_singleton.mp hother)
        exact List.mem_append_right _ (List.mem_singleton_self _)
  | manifestEntry =>
      have hx : (if s.dropped < s.versions.length then some (s, Except.ok none) else none) =
          some (s', x) := hx
      split_ifs at hx
      cases hx
      refine ⟨Calm.guar (Calm.refl _), fun name hname => ?_, hidle⟩
      rcases List.mem_append.mp hname with hname | hname
      · exact hturned name hname
      · exact nomatch List.mem_singleton.mp hname
  | _ => cases hx

theorem Does.gatherEntries {handle : Nat} (hcall : call = .destroy handle) (left : Nat)
    (doomed : List (Option ObjectName)) :
    Does ok t call (fun s => Turned doomed s ∧ Idle t s) (Fckdb.gatherEntries left doomed)
      (fun entries s => Turned entries s ∧ Idle t s) (Idle t) := by
  induction left generalizing doomed with
  | zero => exact .ret ((stable_turned _).and stable_idle) fun _ h => h
  | succ left ih => exact .seq (Does.nextAny hcall doomed) fun entry => ih (doomed ++ [entry])

/-- One entry is deleted: a listed object, or the manifest. -/
theorem deleteEntry_triple {handle : Nat} (hcall : call = .destroy handle)
    {entries : List (Option ObjectName)} {entry : Option ObjectName} (hentry : entry ∈ entries) :
    Triple (service.Answers ok t) (Rely t) (Clears ok t call)
      (fun s => Turned entries s ∧ s.Sound) (Fckdb.deleteEntry entry) fun _ _ => True := by
  have hstable : Stable (Rely t) fun s => Turned entries s ∧ s.Sound :=
    (stable_turned entries).and fun _ _ h => h.sound
  cases entry with
  | none =>
      exact (deleteManifest_triple hcall).conseq (fun _ h => h.2) fun _ _ _ => trivial
  | some name =>
      refine Triple.call (Request.delete name) hstable (fun _ => stable_true) ?_
      rintro s s' x ⟨hturned, -⟩ ⟨-, c, hx⟩
      cases c <;> cases hx
      · refine ⟨⟨Grows.of_eq rfl List.prefix_rfl (List.prefix_append _ _) (Nat.le_refl _)
          (le_max_left _ _) List.prefix_rfl (Nat.le_refl _) rfl rfl, ?_⟩, trivial⟩
        exact .wipe handle name hcall (hturned name hentry) rfl
      · exact ⟨⟨.refl s, (Calm.refl s).guar.2⟩, trivial⟩

/-- **Destroying**: it writes no manifest. -/
theorem Does.destroy {handle : Nat} (hcall : call = .destroy handle) :
    Does ok t call (Idle t) (Fckdb.destroy handle) (fun _ s => Idle t s) (Idle t) := by
  have hidle := stable_idle (t := t)
  have hrest : Does ok t call (Idle t) (destroyRest handle) (fun _ s => Idle t s) (Idle t) := by
    refine .after hidle Calmly.listAll (fun _ _ => trivial) (fun _ h => h) fun entries => ?_
    refine .seq ((Does.gatherEntries hcall entries []).conseq (fun s h => ⟨nofun, h.2⟩)
      fun _ _ h => h) fun doomed => ?_
    refine .seq ((Does.ofClears (Clears.tryJoinAll fun entry hentry => deleteEntry_triple hcall hentry)).conseq
      (fun s h => ⟨⟨h.1, h.2.1⟩, h.2⟩) fun _ _ h => h) fun _ => ?_
    exact .afterSure hidle (Calmly.forgetSnapshot handle) (fun _ _ => trivial) fun _ =>
      .ret (stable_true.and hidle) fun _ h => h.2
  -- whether or not the manifest could be deleted, the rest follows
  have hfirst := (Does.ofClears (@deleteManifest_triple _ _ ok t _ _ hcall)).conseq
    (fun s h => ⟨h.1, h⟩) fun _ _ h => h
  refine Triple.bind (fun s => Grows.refl s) hfirst fun r => ?_
  cases r with
  | ok _ => exact hrest
  | error _ => exact hrest

end Fckdb

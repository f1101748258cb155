import GenesisOS.Abstract.Invariant

/-!
# GenesisOS — no identifier is lost

A process, file or semaphore identifier that names nothing is in its free list
(`Libres`), and a semaphore holds its own identifier. `Coherent` says the
converse, the same of files and processes, and that no list holds an identifier
twice. Every transition keeps it: an identifier leaves its list when its table
entry is filled, and comes back when the entry is cleared or when the creation
fails.
-/

namespace GenesisOS

open Lib

/-- The identifiers that name nothing are free, and those of semaphores name
the semaphore that holds them. -/
structure Core.Libres (s : Core) : Prop where
  pid : ∀ i, 0 < i → i < MAX_PROCESS → s.tableDesProcs i = none →
    i ∈ s.pidLibreTete.map PidLibre.pid
  fid : ∀ i, 0 ≤ i → i < NBQUEUE → s.tableauFile i = none → i ∈ s.fidListe.map FidLibre.fid
  sid : ∀ i, 0 ≤ i → i < NBSEM → s.tableauSem i = none → i ∈ s.sidListe.map SidLibre.sid
  nom : ∀ i sem, s.tableauSem i = some sem → sem.sid = i

/-- The tables and the free lists are the same. -/
structure MemesTables (s s' : Core) : Prop where
  table : s'.tableDesProcs = s.tableDesProcs
  pids : s'.pidLibreTete = s.pidLibreTete
  file : s'.tableauFile = s.tableauFile
  fids : s'.fidListe = s.fidListe
  sem : s'.tableauSem = s.tableauSem
  sids : s'.sidListe = s.sidListe

namespace MemesTables

variable {s s' s'' : Core}

theorem refl : MemesTables s s := ⟨rfl, rfl, rfl, rfl, rfl, rfl⟩

theorem trans (m : MemesTables s s') (m' : MemesTables s' s'') : MemesTables s s'' :=
  ⟨m'.table.trans m.table, m'.pids.trans m.pids, m'.file.trans m.file, m'.fids.trans m.fids,
    m'.sem.trans m.sem, m'.sids.trans m.sids⟩

theorem reveillePere (m : MemesTables s s') {p : Ptr} : MemesTables s (s'.reveillePere p) := by
  refine m.trans ?_
  unfold Core.reveillePere
  split <;> exact ⟨rfl, rfl, rfl, rfl, rfl, rfl⟩

theorem rejets {sid status : Int} {sem : Semaphore}
    (hr : Relation.ReflTransGen (Rejet sid sem status) s s') : MemesTables s s' := by
  induction hr with
  | refl => exact refl
  | tail _ hlast ih =>
    obtain ⟨p, hp, rfl⟩ := hlast
    exact ih.trans ⟨rfl, rfl, rfl, rfl, rfl, rfl⟩

theorem depose : MemesTables s s.depose := by
  unfold Core.depose
  split <;> exact ⟨rfl, rfl, rfl, rfl, rfl, rfl⟩

end MemesTables

namespace Core.Libres

variable {s s' : Core}

theorem congr (h : s.Libres) (m : MemesTables s s') : s'.Libres := by
  refine ⟨?_, ?_, ?_, ?_⟩
  · rw [m.table, m.pids]
    exact h.pid
  · rw [m.file, m.fids]
    exact h.fid
  · rw [m.sem, m.sids]
    exact h.sid
  · rw [m.sem]
    exact h.nom

/-- A file keeps its table entry. -/
theorem majFile (h : s.Libres) (fid : Int) (f : File) : (s.majFile fid (some f)).Libres := by
  refine ⟨h.pid, ?_, h.sid, h.nom⟩
  intro i h0 hN hi
  rw [Core.majFile_tableauFile] at hi
  by_cases hx : i = fid
  · subst hx
    rw [Function.update_self] at hi
    cases hi
  · rw [Function.update_of_ne hx] at hi
    exact h.fid i h0 hN hi

/-- A semaphore keeps its table entry. -/
theorem majSem (h : s.Libres) {sid : Int} {sem sem' : Semaphore} (hs : s.tableauSem sid = some sem)
    (hnom : sem'.sid = sem.sid := by rfl) : (s.majSem sid (some sem')).Libres := by
  refine ⟨h.pid, h.fid, ?_, ?_⟩
  · intro i h0 hN hi
    rw [Core.majSem_tableauSem] at hi
    by_cases hx : i = sid
    · subst hx
      rw [Function.update_self] at hi
      cases hi
    · rw [Function.update_of_ne hx] at hi
      exact h.sid i h0 hN hi
  · intro i sem₁ hi
    rw [Core.majSem_tableauSem] at hi
    by_cases hx : i = sid
    · subst hx
      rw [Function.update_self] at hi
      rw [← Option.some.inj hi, hnom]
      exact h.nom i sem hs
    · rw [Function.update_of_ne hx] at hi
      exact h.nom i sem₁ hi

theorem liberation_pas (hc : Coherent s) (h : s.Libres) (hl : Liberation s s') : s'.Libres := by
  obtain ⟨p, adr, n, hp, hn, L⟩ := hc.liberation_spec hl
  refine ⟨?_, by rw [L.file, L.fids]; exact h.fid, by rw [L.sem, L.sids]; exact h.sid,
    by rw [L.sem]; exact h.nom⟩
  intro i h0 hN hi
  rw [L.table] at hi
  rw [L.pids, List.map_cons, List.mem_cons]
  split at hi
  · next hx => exact .inl hx
  · exact .inr (h.pid i h0 hN hi)

theorem liberation (hc : Coherent s) (h : s.Libres) (hl : Relation.ReflTransGen Liberation s s') :
    s'.Libres := Conserve.liberation (fun hc hi hl => liberation_pas hc hi hl) hc h hl

theorem quiet {l : Etiquette} (h : s.Libres) (hst : Stable s) (q : Quiet l s s') : s'.Libres := by
  have meme : ∀ {s₁ : Core}, MemesTables s s₁ → s₁.Libres := h.congr
  cases q with
  | @rendPid _ cell reste adr n hl hn t ht =>
    refine ⟨?_, h.fid, h.sid, h.nom⟩
    intro i h0 hN hi
    have hm := h.pid i h0 hN hi
    rw [hl] at hm
    exact hm
  | @cree _ p r cell reste adr n hl hp hn hpid hetat hctx hfils hprio hret =>
    refine ⟨?_, h.fid, h.sid, h.nom⟩
    intro i h0 hN hi
    have hi' : Function.update s.tableDesProcs r.pid (some p) i = none := hi
    show i ∈ reste.map PidLibre.pid
    by_cases hx : i = r.pid
    · rw [hx, Function.update_self] at hi'
      cases hi'
    · rw [Function.update_of_ne hx] at hi'
      have hm := h.pid i h0 hN hi'
      rw [hl, List.map_cons, List.mem_cons] at hm
      exact hm.resolve_left fun he => hx (he.trans hpid.symm)
  | tueZombie hpid hp hz hm ht hpere =>
    refine meme (.reveillePere ?_)
    exact ⟨rfl, rfl, rfl, rfl, rfl, rfl⟩
  | liberation hl hvide => exact h.liberation hst.coherent hl
  | @creeFile _ fid n adr l cell m hl hfid h0 hN hn hadr hm =>
    refine ⟨h.pid, ?_, h.sid, h.nom⟩
    intro i hi0 hiN hi
    have hi' : Function.update s.tableauFile fid
      (some { adr := adr, fid := fid, maxMsg := n, queueMsg := [] }) i = none := hi
    show i ∈ l.map FidLibre.fid
    by_cases hx : i = fid
    · rw [hx, Function.update_self] at hi'
      cases hi'
    · rw [Function.update_of_ne hx] at hi'
      have hm := h.fid i hi0 hiN hi'
      rw [hl, List.map_append, List.mem_append] at hm
      exact hm.resolve_right fun he => hx ((List.mem_singleton.mp he).trans hfid)
  | vide hf hp => exact (h.majFile _ _).congr ⟨rfl, rfl, rfl, rfl, rfl, rfl⟩
  | @supprimeFile _ fid f adr n hf hp hn =>
    refine ⟨h.pid, ?_, h.sid, h.nom⟩
    intro i hi0 hiN hi
    have hi' : Function.update s.tableauFile fid none i = none := hi
    show i ∈ (insertByKey FidLibre.fid ⟨adr, fid⟩ s.fidListe).map FidLibre.fid
    by_cases hx : i = fid
    · exact List.mem_map.mpr ⟨⟨adr, fid⟩, (List.mem_orderedInsert _).mpr (.inl rfl), hx.symm⟩
    · rw [Function.update_of_ne hx] at hi'
      obtain ⟨c, hc, he⟩ := List.mem_map.mp (h.fid i hi0 hiN hi')
      exact List.mem_map.mpr ⟨c, (List.mem_orderedInsert _).mpr (.inr hc), he⟩
  | depose hidle hf hnon hlt hn =>
    exact ((h.congr (⟨rfl, rfl, rfl, rfl, rfl, rfl⟩ : MemesTables s (s.emet _ _))).majFile _ _).congr
      ⟨rfl, rfl, rfl, rfl, rfl, rfl⟩
  | prend hidle hf hl hp =>
    exact ((h.congr (⟨rfl, rfl, rfl, rfl, rfl, rfl⟩ : MemesTables s (s.recoit _ _))).majFile _ _).congr
      ⟨rfl, rfl, rfl, rfl, rfl, rfl⟩
  | relaye hidle hf hl hp hn =>
    exact ((h.congr (⟨rfl, rfl, rfl, rfl, rfl, rfl⟩ : MemesTables s (s.recoit _ _))).majFile _ _).congr
      ⟨rfl, rfl, rfl, rfl, rfl, rfl⟩
  | @creeSem _ sid n adr l cell m sem hl hsid h0 hsem hadr hfrais hm hnom =>
    refine ⟨h.pid, h.fid, ?_, ?_⟩
    · intro i hi0 hiN hi
      have hi' : Function.update s.tableauSem sid (some sem) i = none := hi
      show i ∈ l.map SidLibre.sid
      by_cases hx : i = sid
      · rw [hx, Function.update_self] at hi'
        cases hi'
      · rw [Function.update_of_ne hx] at hi'
        have hm := h.sid i hi0 hiN hi'
        rw [hl, List.map_append, List.mem_append] at hm
        exact hm.resolve_right fun he => hx ((List.mem_singleton.mp he).trans hsid)
    · intro i sem₁ hi
      have hi' : Function.update s.tableauSem sid (some sem) i = some sem₁ := hi
      by_cases hx : i = sid
      · rw [hx, Function.update_self] at hi'
        rw [← Option.some.inj hi', hx, hnom]
      · rw [Function.update_of_ne hx] at hi'
        exact h.nom i sem₁ hi'
  | @rendSid _ l cell adr n hl hn =>
    refine ⟨h.pid, h.fid, ?_, h.nom⟩
    intro i hi0 hiN hi
    show i ∈ (insertByKey SidLibre.sid ⟨adr, cell.sid⟩ l).map SidLibre.sid
    have hm := h.sid i hi0 hiN hi
    rw [hl, List.map_append, List.mem_append] at hm
    rcases hm with hm | hm
    · obtain ⟨c, hc, he⟩ := List.mem_map.mp hm
      exact List.mem_map.mpr ⟨c, (List.mem_orderedInsert _).mpr (.inr hc), he⟩
    · refine List.mem_map.mpr ⟨⟨adr, cell.sid⟩, (List.mem_orderedInsert _).mpr (.inl rfl), ?_⟩
      exact (List.mem_singleton.mp hm).symm
  | @sdelete _ s₁ sid sem adr n b hs hr hp hn hb =>
    have h₁ := h.congr (.rejets hr)
    refine ⟨h₁.pid, h₁.fid, ?_, ?_⟩
    · intro i hi0 hiN hi
      have hi' : Function.update s₁.tableauSem sid none i = none := hi
      show i ∈ (insertByKey SidLibre.sid ⟨adr, sid⟩ s₁.sidListe).map SidLibre.sid
      by_cases hx : i = sid
      · exact List.mem_map.mpr ⟨⟨adr, sid⟩, (List.mem_orderedInsert _).mpr (.inl rfl), hx.symm⟩
      · rw [Function.update_of_ne hx] at hi'
        obtain ⟨c, hc, he⟩ := List.mem_map.mp (h₁.sid i hi0 hiN hi')
        exact List.mem_map.mpr ⟨c, (List.mem_orderedInsert _).mpr (.inr hc), he⟩
    · intro i sem₁ hi
      have hi' : Function.update s₁.tableauSem sid none i = some sem₁ := hi
      by_cases hx : i = sid
      · rw [hx, Function.update_self] at hi'
        cases hi'
      · rw [Function.update_of_ne hx] at hi'
        exact h₁.nom i sem₁ hi'
  | sreset hs hr hp h0 hc hb =>
    have m := MemesTables.rejets hr
    exact (h.congr m).majSem (by rw [m.sem]; exact hs)
  | signale hs hmax hpos => exact (h.majSem hs).congr ⟨rfl, rfl, rfl, rfl, rfl, rfl⟩
  | signaleReveil hs hmax hneg hp => exact (h.majSem hs).congr ⟨rfl, rfl, rfl, rfl, rfl, rfl⟩
  | prendSem hs hpos => exact (h.majSem hs).congr ⟨rfl, rfl, rfl, rfl, rfl, rfl⟩
  | _ => exact meme ⟨rfl, rfl, rfl, rfl, rfl, rfl⟩

theorem conserve (C : Cadre) : Conserve C Core.Libres where
  quiet h _ hi _ q := hi.quiet h q
  sortie := by
    intro m k s s' _ _ hi _ q
    cases q with
    | wait hidle hs hmin hneg => exact (hi.majSem hs).congr ⟨rfl, rfl, rfl, rfl, rfl, rfl⟩
    | exitZombie hidle hp =>
      refine hi.congr (MemesTables.trans (.reveillePere ?_) ⟨rfl, rfl, rfl, rfl, rfl, rfl⟩)
      exact ⟨rfl, rfl, rfl, rfl, rfl, rfl⟩
    | _ => exact hi.congr ⟨rfl, rfl, rfl, rfl, rfl, rfl⟩
  libere h hi hl := liberation_pas h hi hl
  election := by
    intro s s' _ _ _ hi hel
    cases hel with
    | aucune _ => exact hi
    | elit _ _ => exact hi.congr (MemesTables.depose.trans ⟨rfl, rfl, rfl, rfl, rfl, rfl⟩)
  retour _ _ _ hi := hi.congr ⟨rfl, rfl, rfl, rfl, rfl, rfl⟩

end Core.Libres

end GenesisOS

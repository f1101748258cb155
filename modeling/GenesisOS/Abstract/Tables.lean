import GenesisOS.Abstract.Preservation

/-!
# GenesisOS — the tables keep the coherence

The transitions that change the table of processes, the families, the tables
of message files and semaphores and the lists of free identifiers: creating a
process and reaping one, creating and deleting a file or a semaphore, changing
the contents of an entry.
-/

namespace GenesisOS

open Lib

namespace Coherent

variable {s s' : Core} {p q c f : Ptr}

-- ---------------------------------------------------------------------------
-- Around the processes
-- ---------------------------------------------------------------------------

/-- The processes of `s'` are those of `s`, with the same structures, in the
same lists and at the same entries. -/
structure MemesProcessus (s s' : Core) : Prop where
  vivant : s'.vivant = s.vivant
  tas : ∀ p, s.vivant p = true → s'.tas p = s.tas p
  lien : ∀ p, s'.lien p = s.lien p
  elems : s'.elems .procActivables = s.elems .procActivables
  elu : s'.procElu = s.procElu
  idle : s'.procIdle = s.procIdle
  table : s'.tableDesProcs = s.tableDesProcs
  prochain : s.prochain ≤ s'.prochain

/-- Only the tables of files and semaphores and the free identifiers change. -/
theorem autour (h : Coherent s) (m : MemesProcessus s s')
    (lieFile : ∀ p fid, s.lien p = some (.file fid) → ∃ f, s'.tableauFile fid = some f)
    (lieSem : ∀ p sid, s.lien p = some (.semaphore sid) → ∃ sem, s'.tableauSem sid = some sem)
    (file : ∀ fid f, s'.tableauFile fid = some f →
      0 ≤ fid ∧ fid < NBQUEUE ∧ f.fid = fid ∧ 0 < f.maxMsg ∧ getNbMsg f ≤ f.maxMsg)
    (fidLibre : ∀ c ∈ s'.fidListe, 0 ≤ c.fid ∧ c.fid < NBQUEUE ∧ s'.tableauFile c.fid = none)
    (fidUnique : (s'.fidListe.map FidLibre.fid).Nodup)
    (sem : ∀ sid sem, s'.tableauSem sid = some sem → 0 ≤ sid ∧ sid < NBSEM)
    (sidLibre : ∀ c ∈ s'.sidListe, 0 ≤ c.sid ∧ c.sid < NBSEM ∧ s'.tableauSem c.sid = none)
    (sidUnique : (s'.sidListe.map SidLibre.sid).Nodup)
    (pidLibre : ∀ c ∈ s'.pidLibreTete,
      0 < c.pid ∧ c.pid < MAX_PROCESS ∧ s'.tableDesProcs c.pid = none)
    (pidUnique : (s'.pidLibreTete.map PidLibre.pid).Nodup) : Coherent s' where
  place p hp := by
    rw [m.vivant] at hp
    have hpl := h.place p hp
    unfold Core.Place at hpl ⊢
    rw [m.tas p hp, m.lien, m.elu]
    exact hpl
  lie p t hp := by
    rw [m.lien] at hp
    rw [m.vivant]
    exact h.lie p t hp
  lieFile p fid hp := lieFile p fid (m.lien p ▸ hp)
  lieSem p sid hp := lieSem p sid (m.lien p ▸ hp)
  tri := by
    have hs := h.tri
    unfold LinkedQueues.Sorted at hs ⊢
    rw [show s'.chainage.elems .procActivables = s.chainage.elems .procActivables from m.elems]
    refine List.Pairwise.imp_of_mem ?_ hs
    intro a b ha hb hab
    show (s'.tas a).prio ≤ (s'.tas b).prio
    rw [m.tas a (h.lie a _ (LinkedQueues.link_of_mem ha)),
      m.tas b (h.lie b _ (LinkedQueues.link_of_mem hb))]
    exact hab
  file := file
  fidLibre := fidLibre
  fidUnique := fidUnique
  sem := sem
  sidLibre := sidLibre
  sidUnique := sidUnique
  table i p hp := by
    rw [m.table] at hp
    obtain ⟨hv, hpid⟩ := h.table i p hp
    rw [m.vivant, m.tas p hv]
    exact ⟨hv, hpid⟩
  inscrit p hp := by
    rw [m.vivant] at hp
    rw [m.table, m.tas p hp]
    exact h.inscrit p hp
  pid p hp := by
    rw [m.vivant] at hp
    rw [m.tas p hp]
    exact h.pid p hp
  pidLibre := pidLibre
  pidUnique := pidUnique
  ancien p hp := by
    rw [m.vivant] at hp
    exact (h.ancien p hp).trans_le m.prochain
  pere c f hc hm hf := by
    rw [m.vivant] at hc
    rw [m.tas c hc] at hm hf
    obtain ⟨hfv, hcf⟩ := h.pere c f hc hm hf
    unfold Core.fils
    rw [m.vivant, m.tas f hfv]
    exact ⟨hfv, hcf⟩
  fils f c hf hc := by
    rw [m.vivant] at hf
    unfold Core.fils at hc
    rw [m.tas f hf] at hc
    obtain ⟨hv, hp, hm⟩ := h.fils f c hf hc
    rw [m.vivant, m.tas c hv]
    exact ⟨hv, hp, hm⟩
  filsUnique f hf := by
    rw [m.vivant] at hf
    unfold Core.fils
    rw [m.tas f hf]
    exact h.filsUnique f hf
  orphelin p hp hm := by
    rw [m.vivant] at hp
    rw [m.tas p hp] at hm
    rw [m.lien, m.tas p hp]
    exact h.orphelin p hp hm
  idle := by
    unfold Core.fils
    rw [m.idle, m.vivant, m.tas _ h.idle.1]
    exact h.idle
  idleEtat := by
    rw [m.idle, m.tas _ h.idle.1]
    exact h.idleEtat
  idleContexte := by
    rw [m.idle, m.tas _ h.idle.1]
    exact h.idleContexte
  prio p hp hi := by
    rw [m.vivant] at hp
    rw [m.idle] at hi
    rw [m.tas p hp]
    exact h.prio p hp hi
  suspendu p hp := by
    rw [m.vivant] at hp
    have hs := h.suspendu p hp
    have hmort : s'.Mort p ↔ s.Mort p := by unfold Core.Mort; rw [m.tas p hp]
    have hfils : s'.fils p = s.fils p := by unfold Core.fils; rw [m.tas p hp]
    refine ⟨?_, ?_, ?_, ?_, ?_, ?_, ?_⟩
    all_goals simp only [m.tas p hp, hmort, hfils]
    · exact hs.file
    · exact hs.semaphore
    · exact hs.es
    · exact hs.fils
    · exact hs.exit
    · intro hm pid c r hx
      obtain ⟨h0, hc, hpid⟩ := hs.waitpid hm pid c r hx
      rw [m.tas c (h.fils p c hp hc).1]
      exact ⟨h0, hc, hpid⟩
    · exact hs.waitpidFils

-- ---------------------------------------------------------------------------
-- Process identifiers
-- ---------------------------------------------------------------------------

theorem rendPid (h : Coherent s) {cell : PidLibre} {reste : List PidLibre} {adr n : Nat}
    (hl : s.pidLibreTete = cell :: reste) (hn : s.prochain ≤ n) {t : Ptr → Processus}
    (ht : ∀ p, p < s.prochain → t p = s.tas p) :
    Coherent { s with tas := t, pidLibreTete := ⟨adr, cell.pid⟩ :: reste, prochain := n } := by
  have hlibre := h.pidLibre
  have hunique := h.pidUnique
  rw [hl] at hlibre hunique
  refine h.autour ⟨rfl, fun p hp => ht p (h.ancien p hp), fun _ => rfl, rfl, rfl, rfl, rfl, hn⟩
    h.lieFile h.lieSem h.file h.fidLibre h.fidUnique h.sem h.sidLibre h.sidUnique ?_ hunique
  intro c hc
  rcases List.mem_cons.mp hc with rfl | hc
  · exact hlibre cell (by simp)
  · exact hlibre c (by simp [hc])

-- ---------------------------------------------------------------------------
-- Message files
-- ---------------------------------------------------------------------------

/-- The contents of an existing file may change within its capacity. -/
theorem majFile (h : Coherent s) {fid : Int} {f f' : File} (hf : s.tableauFile fid = some f)
    (hnb : getNbMsg f' ≤ f.maxMsg) (hfid : f'.fid = f.fid := by rfl)
    (hmax : f'.maxMsg = f.maxMsg := by rfl) : Coherent (s.majFile fid (some f')) := by
  refine h.autour ⟨rfl, fun _ _ => rfl, fun _ => rfl, rfl, rfl, rfl, rfl, le_rfl⟩
    ?_ h.lieSem ?_ ?_ h.fidUnique h.sem h.sidLibre h.sidUnique h.pidLibre h.pidUnique
  · intro p g hp
    by_cases hg : g = fid
    · subst hg
      exact ⟨f', by simp⟩
    · obtain ⟨f₁, hf₁⟩ := h.lieFile p g hp
      exact ⟨f₁, by simpa [hg] using hf₁⟩
  · intro g f₁ hf₁
    by_cases hg : g = fid
    · subst hg
      obtain ⟨h0, hN, hfd, hpos, -⟩ := h.file g f hf
      simp only [Core.majFile_tableauFile, Function.update_self, Option.some.injEq] at hf₁
      subst hf₁
      exact ⟨h0, hN, hfid.trans hfd, by rw [hmax]; exact hpos, by rw [hmax]; exact hnb⟩
    · exact h.file g f₁ (by simpa [hg] using hf₁)
  · intro c hc
    obtain ⟨h0, hN, hnone⟩ := h.fidLibre c hc
    have hne : c.fid ≠ fid := by
      intro he
      rw [he, hf] at hnone
      cases hnone
    exact ⟨h0, hN, by simpa [hne] using hnone⟩

/-- Emptying a list that holds no one changes no link. -/
theorem lien_reset_of_vide {t : Tete} (hvide : ∀ p, s.lien p ≠ some t)
    (p : Ptr) : (s.chainage.reset t).link p = s.lien p := by
  rw [LinkedQueues.link_reset, if_neg (hvide p)]

theorem creeFile (h : Coherent s) {n : Int} {adr : Ptr} {l : List FidLibre} {cell : FidLibre}
    {m : Nat} (hl : s.fidListe = l ++ [cell]) (hn : 0 < n) (hm : s.prochain ≤ m) :
    Coherent { s with
      fidListe := l
      prochain := m
      chainage := s.chainage.reset (.file cell.fid)
      tableauFile := Function.update s.tableauFile cell.fid
        (some { adr := adr, fid := cell.fid, maxMsg := n, queueMsg := [] }) } := by
  have hlibre := h.fidLibre
  have hunique := h.fidUnique
  rw [hl] at hlibre hunique
  rw [List.map_append, List.nodup_append] at hunique
  obtain ⟨h0, hN, hnone⟩ := hlibre cell (by simp)
  have hvide : ∀ p, s.lien p ≠ some (.file cell.fid) := by
    intro p hp
    obtain ⟨f, hf⟩ := h.lieFile p _ hp
    rw [hnone] at hf
    cases hf
  refine h.autour ⟨rfl, fun _ _ => rfl, lien_reset_of_vide hvide, ?_, rfl, rfl, rfl, hm⟩
    ?_ h.lieSem ?_ ?_ hunique.1 h.sem h.sidLibre h.sidUnique h.pidLibre h.pidUnique
  · show (s.chainage.reset _).elems _ = _
    rw [LinkedQueues.elems_reset, if_neg (by simp)]
  · intro p g hp
    obtain ⟨f, hf⟩ := h.lieFile p g hp
    have hne : g ≠ cell.fid := by
      rintro rfl
      exact hvide p hp
    exact ⟨f, by simpa [hne] using hf⟩
  · intro g f hf
    by_cases hg : g = cell.fid
    · subst hg
      simp only [Function.update_self, Option.some.injEq] at hf
      subst hf
      exact ⟨h0, hN, rfl, hn, by simpa [getNbMsg] using hn.le⟩
    · exact h.file g f (by simpa [hg] using hf)
  · intro c hc
    obtain ⟨h0, hN, hnone⟩ := hlibre c (by simp [hc])
    have hne : c.fid ≠ cell.fid :=
      hunique.2.2 c.fid (List.mem_map_of_mem hc) cell.fid (by simp)
    exact ⟨h0, hN, by simpa [hne] using hnone⟩

theorem supprimeFile (h : Coherent s) {fid : Int} {f : File} {adr n : Nat}
    (hf : s.tableauFile fid = some f) (hvide : s.elems (.file fid) = []) (hn : s.prochain ≤ n) :
    Coherent { s with
      tableauFile := Function.update s.tableauFile fid none
      fidListe := insertByKey FidLibre.fid ⟨adr, fid⟩ s.fidListe
      prochain := n } := by
  have hlien : ∀ p, s.lien p ≠ some (.file fid) := by
    intro p hp
    have hmem : p ∈ s.elems (.file fid) := (s.chainage.mem_iff p _).mpr hp
    rw [hvide] at hmem
    cases hmem
  refine h.autour ⟨rfl, fun _ _ => rfl, fun _ => rfl, rfl, rfl, rfl, rfl, hn⟩
    ?_ h.lieSem ?_ ?_ ?_ h.sem h.sidLibre h.sidUnique h.pidLibre h.pidUnique
  · intro p g hp
    obtain ⟨f₁, hf₁⟩ := h.lieFile p g hp
    have hne : g ≠ fid := by
      rintro rfl
      exact hlien p hp
    exact ⟨f₁, by simpa [hne] using hf₁⟩
  · intro g f₁ hf₁
    by_cases hg : g = fid
    · simp [hg] at hf₁
    · exact h.file g f₁ (by simpa [hg] using hf₁)
  · intro c hc
    rcases (List.mem_orderedInsert _).mp hc with rfl | hc
    · obtain ⟨h0, hN, -⟩ := h.file fid f hf
      exact ⟨h0, hN, by simp⟩
    · obtain ⟨h0, hN, hnone⟩ := h.fidLibre c hc
      refine ⟨h0, hN, ?_⟩
      by_cases he : c.fid = fid <;> simp [he, hnone]
  · refine map_insertByKey_nodup ?_ h.fidUnique
    intro hm
    obtain ⟨c, hc, he⟩ := List.mem_map.mp hm
    have hnone := (h.fidLibre c hc).2.2
    rw [he, hf] at hnone
    cases hnone

-- ---------------------------------------------------------------------------
-- Semaphores
-- ---------------------------------------------------------------------------

/-- The structure of an existing semaphore may change. -/
theorem majSem (h : Coherent s) {sid : Int} {sem sem' : Semaphore}
    (hs : s.tableauSem sid = some sem) : Coherent (s.majSem sid (some sem')) := by
  refine h.autour ⟨rfl, fun _ _ => rfl, fun _ => rfl, rfl, rfl, rfl, rfl, le_rfl⟩
    h.lieFile ?_ h.file h.fidLibre h.fidUnique ?_ ?_ h.sidUnique h.pidLibre h.pidUnique
  · intro p g hp
    by_cases hg : g = sid
    · subst hg
      exact ⟨sem', by simp⟩
    · obtain ⟨sem₁, hs₁⟩ := h.lieSem p g hp
      exact ⟨sem₁, by simpa [hg] using hs₁⟩
  · intro g sem₁ hs₁
    by_cases hg : g = sid
    · exact hg ▸ h.sem sid sem hs
    · exact h.sem g sem₁ (by simpa [hg] using hs₁)
  · intro c hc
    obtain ⟨h0, hN, hnone⟩ := h.sidLibre c hc
    have hne : c.sid ≠ sid := by
      intro he
      rw [he, hs] at hnone
      cases hnone
    exact ⟨h0, hN, by simpa [hne] using hnone⟩

theorem creeSem (h : Coherent s) {l : List SidLibre} {cell : SidLibre} {m : Nat} {sem : Semaphore}
    (hl : s.sidListe = l ++ [cell]) (hm : s.prochain ≤ m) :
    Coherent ({ s with
      sidListe := l
      prochain := m
      chainage := s.chainage.reset (.semaphore cell.sid) }.majSem cell.sid (some sem)) := by
  have hlibre := h.sidLibre
  have hunique := h.sidUnique
  rw [hl] at hlibre hunique
  rw [List.map_append, List.nodup_append] at hunique
  obtain ⟨h0, hN, hnone⟩ := hlibre cell (by simp)
  have hvide : ∀ p, s.lien p ≠ some (.semaphore cell.sid) := by
    intro p hp
    obtain ⟨sem, hs⟩ := h.lieSem p _ hp
    rw [hnone] at hs
    cases hs
  refine h.autour ⟨rfl, fun _ _ => rfl, lien_reset_of_vide hvide, ?_, rfl, rfl, rfl, hm⟩
    h.lieFile ?_ h.file h.fidLibre h.fidUnique ?_ ?_ hunique.1 h.pidLibre h.pidUnique
  · show (s.chainage.reset _).elems _ = _
    rw [LinkedQueues.elems_reset, if_neg (by simp)]
  · intro p g hp
    obtain ⟨sem, hs⟩ := h.lieSem p g hp
    have hne : g ≠ cell.sid := by
      rintro rfl
      exact hvide p hp
    exact ⟨sem, by simpa [hne] using hs⟩
  · intro g sem₁ hs₁
    by_cases hg : g = cell.sid
    · exact hg ▸ ⟨h0, hN⟩
    · exact h.sem g sem₁ (by simpa [hg] using hs₁)
  · intro c hc
    obtain ⟨h0, hN, hnone⟩ := hlibre c (by simp [show c ∈ l from hc])
    have hne : c.sid ≠ cell.sid :=
      hunique.2.2 c.sid (List.mem_map_of_mem hc) cell.sid (by simp)
    exact ⟨h0, hN, by simpa [hne] using hnone⟩

theorem rendSid (h : Coherent s) {l : List SidLibre} {cell : SidLibre} {adr n : Nat}
    (hl : s.sidListe = l ++ [cell]) (hn : s.prochain ≤ n) :
    Coherent { s with
      sidListe := insertByKey SidLibre.sid ⟨adr, cell.sid⟩ l, prochain := n } := by
  have hlibre := h.sidLibre
  have hunique := h.sidUnique
  rw [hl] at hlibre hunique
  rw [List.map_append, List.nodup_append] at hunique
  refine h.autour ⟨rfl, fun _ _ => rfl, fun _ => rfl, rfl, rfl, rfl, rfl, hn⟩
    h.lieFile h.lieSem h.file h.fidLibre h.fidUnique h.sem ?_ ?_ h.pidLibre h.pidUnique
  · intro c hc
    rcases (List.mem_orderedInsert _).mp hc with rfl | hc
    · exact hlibre cell (by simp)
    · exact hlibre c (by simp [hc])
  · refine map_insertByKey_nodup ?_ hunique.1
    intro hm
    exact hunique.2.2 _ hm cell.sid (by simp) rfl

theorem supprimeSem (h : Coherent s) {sid : Int} {sem : Semaphore} {adr n : Nat}
    (hs : s.tableauSem sid = some sem) (hvide : s.elems (.semaphore sid) = [])
    (hn : s.prochain ≤ n) :
    Coherent { s.majSem sid none with
      sidListe := insertByKey SidLibre.sid ⟨adr, sid⟩ s.sidListe, prochain := n } := by
  have hlien : ∀ p, s.lien p ≠ some (.semaphore sid) := by
    intro p hp
    have hmem : p ∈ s.elems (.semaphore sid) := (s.chainage.mem_iff p _).mpr hp
    rw [hvide] at hmem
    cases hmem
  refine h.autour ⟨rfl, fun _ _ => rfl, fun _ => rfl, rfl, rfl, rfl, rfl, hn⟩
    h.lieFile ?_ h.file h.fidLibre h.fidUnique ?_ ?_ ?_ h.pidLibre h.pidUnique
  · intro p g hp
    obtain ⟨sem₁, hs₁⟩ := h.lieSem p g hp
    have hne : g ≠ sid := by
      rintro rfl
      exact hlien p hp
    exact ⟨sem₁, by simpa [hne] using hs₁⟩
  · intro g sem₁ hs₁
    by_cases hg : g = sid
    · simp [hg] at hs₁
    · exact h.sem g sem₁ (by simpa [hg] using hs₁)
  · intro c hc
    rcases (List.mem_orderedInsert _).mp hc with rfl | hc
    · obtain ⟨h0, hN⟩ := h.sem sid sem hs
      exact ⟨h0, hN, by simp⟩
    · obtain ⟨h0, hN, hnone⟩ := h.sidLibre c hc
      refine ⟨h0, hN, ?_⟩
      by_cases he : c.sid = sid <;> simp [he, hnone]
  · refine map_insertByKey_nodup ?_ h.sidUnique
    intro hm
    obtain ⟨c, hc, he⟩ := List.mem_map.mp hm
    have hnone := (h.sidLibre c hc).2.2
    rw [he, hs] at hnone
    cases hnone

end Coherent

end GenesisOS

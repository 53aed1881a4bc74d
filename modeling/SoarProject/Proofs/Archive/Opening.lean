import SoarProject.Proofs.Archive.Replay
import SoarProject.Proofs.Row.JoinQueries
import SoarProject.Session.Opening

/-!
# Databases that were just opened

A session that was opened where nothing stood before holds the relations of its registry, without
records and with their indexes. That it could be opened tells that the relations can be created.

* `Session.IsFresh`: a session on a database that was just made.
* `Session.IsFresh.follows`: what stands in its store.
-/

namespace SoarProject

variable {r : Registry}

namespace Registry.Creatable

variable (h : r.Creatable)

include h

/-- The relations of the registry are there. -/
theorem relations_created : (Store.created r).relations = r.layout.map fun e => (e.1, e.2.denoted) :=
  Store.relations_created h.coherent h.created

/-- The relations and the indexes of the registry are there. -/
theorem prepared_created : (Store.created r).Prepared r where
  names_eq := by
    rw [h.relations_created, List.map_map]
    rfl
  hasIndex e he c hc := by
    have hnames : (({} : Store).relations.map (·.1) ++ r.layout.map (·.1)).Nodup :=
      h.coherent.nodup_layout
    exact Store.hasIndex_createMissing hnames h.created (.inr ⟨e, he, c, hc, rfl⟩)

/-- Each relation of the registry is there without records. -/
theorem find?_created {e : RelationName × Relation} (he : e ∈ r.layout) :
    (Store.created r).find? e.1 = some e.2.denoted := by
  exact Store.HasLayout.find?_eq h.relations_created h.coherent he

end Registry.Creatable

/-- A store that was just created conforms to its registry. -/
theorem Registry.Creatable.conforms_created (h : r.Creatable) : (Store.created r).Conforms r := by
  intro e he
  refine ⟨_, h.find?_created he, ?_, ?_⟩ <;>
  · simp only [Registry.layout, List.mem_append, List.mem_map] at he
    obtain (⟨_, -, rfl⟩ | ⟨_, -, rfl⟩) | ⟨_, -, rfl⟩ := he <;>
      simp [Relation.denoted, Relation.cleared, Relation.Typed]

/-- A store that was just created holds no numbers. -/
theorem Registry.Creatable.readsBack_created (h : r.Creatable) : (Store.created r).ReadsBack := by
  intro n relation hfind record hrecord
  obtain ⟨e, he, rfl⟩ := List.mem_map.mp (h.prepared_created.mem_layout hfind)
  rw [h.find?_created he, Option.some.injEq] at hfind
  subst hfind
  simp only [Registry.layout, List.mem_append, List.mem_map] at he
  obtain (⟨_, -, rfl⟩ | ⟨_, -, rfl⟩) | ⟨_, -, rfl⟩ := he <;> cases hrecord

/-- A store conforms to a registry if a relation gets other contents of its types. -/
theorem Store.Conforms.put {s : Store} (h : s.Conforms r) {n : RelationName} {old relation : Relation}
    (hold : s.find? n = some old) (hcleared : relation.cleared = old.cleared) (htyped : relation.Typed) :
    (s.put n relation).Conforms r := by
  intro e he
  obtain ⟨found, hfound, hshape, htypes⟩ := h e he
  rw [find?_put]
  split
  · next hn =>
    rw [hn, hold, Option.some.injEq] at hfound
    subst hfound
    exact ⟨relation, by rw [hold]; rfl, hcleared.trans hshape, htyped⟩
  · exact ⟨found, hfound, hshape, htypes⟩

/-- The numbers of a store are read back if those of what a relation gets are. -/
theorem Store.ReadsBack.put {s : Store} (h : s.ReadsBack) {n : RelationName} {relation : Relation}
    (hback : relation.ReadsBack) : (s.put n relation).ReadsBack := by
  intro m found hfound
  rw [find?_put] at hfound
  split at hfound
  · obtain ⟨-, -, rfl⟩ := Option.map_eq_some_iff.mp hfound
    exact hback
  · exact h m found hfound

/-- No relation can be created in a store that is only read. -/
theorem Store.createAll_ne_none : (createAll {} r false).2 ≠ none := by
  have hlayout : r.layout ≠ [] := by simp [Registry.layout, Table.all]
  obtain ⟨⟨n, relation⟩, rest, hrest⟩ := List.exists_cons_of_ne_nil hlayout
  have hmissing : ({} : Store).find? n = none := rfl
  rw [createAll, hrest, createMissing, hmissing]
  cases uncreatableColumn? relation <;> exact Option.some_ne_none _

/-- Nothing stands at a place yet. -/
def Place.IsVacant (disk : Disk) : Place → Prop
  | .memory => True
  | .shared name => disk.shared.lookup name = none
  | .file name => disk.contents? name = none

/-- What was created at a place where nothing stood is all that a registry calls for, and can only have
been created where that is allowed. -/
theorem Store.createAll_eq_none {w : Bool} (h : (createAll {} r w).2 = none) :
    w = true ∧ (createAll {} r true).2 = none ∧ (createAll {} r w).1 = created r := by
  cases w with
  | false => exact absurd h createAll_ne_none
  | true => exact ⟨rfl, h, rfl⟩

/-- A connection that was made has its store, if nothing kept it from being created. -/
theorem Connection.eq_of_elim {failure : Option StorageError} {c connection : Connection}
    (h : failure.elim (.ok c) (fun e => .error (.storage e)) = (.ok connection : Except Failure Connection)) :
    failure = none ∧ c = connection := by
  cases failure with
  | some e => cases h
  | none => exact ⟨rfl, Except.ok.inj h⟩

/-- A connection to a place where nothing stood has the relations of the registry. -/
theorem Connection.establish_eq_ok {address : Address} {disk disk' : Disk} {connection : Connection}
    (h : establish r address disk = (disk', .ok connection)) (hvacant : address.place.IsVacant disk) :
    address.isWritable = true ∧ (Store.createAll {} r true).2 = none ∧
      ∀ s : Session, s.connection = connection → s.disk = disk' → s.store = .ok (.created r) := by
  obtain ⟨place, w, mustExist⟩ := address
  cases place with
  | memory =>
    -- The connection holds the store that was created, so nothing is looked up later.
    obtain ⟨-, hresult⟩ := Prod.ext_iff.mp h
    change (Store.createAll {} r w).2.elim (Except.ok (Connection.memory (Store.createAll {} r w).1)) _ = _ at hresult
    obtain ⟨hnone, hconnection⟩ := eq_of_elim hresult
    obtain ⟨hw, hdone, hstore⟩ := Store.createAll_eq_none hnone
    refine ⟨hw, hdone, fun s hs _ => ?_⟩
    rw [Session.store, hs, ← hconnection, hstore]
  | shared name =>
    -- Nothing stands under the name yet, and the store is created from nothing.
    have hempty : disk.sharedStore name = {} := by
      rw [Disk.sharedStore, hvacant]
      rfl
    obtain ⟨hdisk, hresult⟩ := Prod.ext_iff.mp h
    change (if ((disk.sharedStore name).createAll r w).2.isSome = true then _ else
      disk.share name ((disk.sharedStore name).createAll r w).1) = disk' at hdisk
    change ((disk.sharedStore name).createAll r w).2.elim (Except.ok (Connection.shared name)) _ = _ at hresult
    rw [hempty] at hdisk hresult
    obtain ⟨hnone, rfl⟩ := eq_of_elim hresult
    obtain ⟨hw, hdone, hstore⟩ := Store.createAll_eq_none hnone
    rw [hnone, if_neg (by simp)] at hdisk
    refine ⟨hw, hdone, fun s hs hdisk' => ?_⟩
    rw [Session.store, hs, hdisk', ← hdisk, ← hstore]
    simp [Disk.share, Disk.putShared, Disk.sharedStore]
  | file name =>
    -- There is no file yet, and one with the new store is written.
    have hcontents : disk.contents? name = none := hvacant
    have hempty : disk.store? name = some {} := by rw [Disk.store?, hcontents]
    unfold establish at h
    dsimp only at h
    split at h
    · cases (Prod.ext_iff.mp h).2
    · rw [hempty] at h
      obtain ⟨hdisk, hresult⟩ := Prod.ext_iff.mp h
      obtain ⟨hnone, rfl⟩ := eq_of_elim hresult
      obtain ⟨rfl, hdone, hstore⟩ := Store.createAll_eq_none hnone
      refine ⟨rfl, hdone, fun s hs hdisk' => ?_⟩
      have hwritten : disk.write name (.store (Store.createAll {} r true).1) = disk' := hdisk
      rw [Session.store, hs, hdisk', ← hwritten, ← hstore]
      simp [Disk.write, Disk.store?, Disk.contents?]

/-- A session that was just opened at an address where nothing stood. -/
def Session.IsFresh (fresh : Session) (r : Registry) : Prop :=
  ∃ url disk, Session.start r url disk = (fresh, .ok ()) ∧
    ∀ address, Address.ofUrl (if url = "" then Address.defaultUrl else url) = .ok address →
      address.place.IsVacant disk

namespace Session.IsFresh

variable {fresh : Session} (h : fresh.IsFresh r) (hr : r.Coherent)

include h hr

/-- The registry of such a session can be created, and its store is what is created. -/
theorem follows : r.Creatable ∧ fresh.Follows r true (.created r) := by
  obtain ⟨url, disk, hstart, hvacant⟩ := h
  unfold start at hstart
  dsimp only at hstart
  split at hstart
  · cases (Prod.ext_iff.mp hstart).2
  · next husable =>
    unfold turnTo at hstart
    split at hstart
    · cases (Prod.ext_iff.mp hstart).2
    · next address haddress =>
      split at hstart
      · cases (Prod.ext_iff.mp hstart).2
      · next disk' connection hestablish =>
        -- No file is in the way, so the relations are created as declared.
        obtain ⟨hw, hdone, hstore⟩ := Connection.establish_eq_ok hestablish (hvacant address haddress)
        obtain rfl := (Prod.ext_iff.mp hstart).1
        exact ⟨⟨hr, husable, hdone⟩, rfl, hw, hstore _ rfl rfl⟩

end Session.IsFresh

/-! ### Databases in memory -/

/-- The address that nobody chose is in memory. -/
theorem Address.ofUrl_defaultUrl : ofUrl defaultUrl = .ok ⟨.memory, true, false⟩ := by
  have hurl : Url.ofText defaultUrl = .ok { kind := "sqlite" } := by
    -- The result is compared as an option, where equality is decidable.
    have hread : (Url.ofText defaultUrl).toOption = some { kind := "sqlite" } := by decide +kernel
    cases hu : Url.ofText defaultUrl with
    | error e => rw [hu] at hread; cases hread
    | ok u => rw [hu] at hread; rw [Option.some.inj hread]
  have hname : ofName false "" = .ok ⟨.memory, true, false⟩ := by
    have hnul : "".contains '\x00' = false := by simp
    rw [ofName, hnul]
    rfl
  have hkind : "sqlite".toList.count '+' = 0 ∧ "sqlite" ∉ driverlessKinds ∧ "sqlite" ∈ kinds ∧
      ({ kind := "sqlite" } : Url).namesHost = false := by decide +kernel
  have hsettings : ({ kind := "sqlite" } : Url).checkSettings = .ok false := rfl
  rw [ofUrl, hurl, ok_bind]
  simp [hkind, hsettings, hname, Url.valuesOf, ok_bind]

/-- A session on a new database in memory. -/
theorem Session.isFresh_memory (h : r.Creatable) :
    ({ registry := r, url := Address.defaultUrl, connection := .memory (.created r) } : Session).IsFresh r := by
  refine ⟨"", {}, ?_, fun address haddress => ?_⟩
  · have hestablish : Connection.establish r ⟨.memory, true, false⟩ {} = ({}, .ok (.memory (.created r))) := by
      rw [Connection.establish]
      dsimp only
      rw [h.created]
      rfl
    unfold start turnTo
    dsimp only
    rw [h.usable, if_pos rfl, Address.ofUrl_defaultUrl]
    dsimp only
    rw [hestablish]
    rfl
  · -- An address in memory has no file that would have to be vacant.
    rw [if_pos rfl, Address.ofUrl_defaultUrl] at haddress
    cases haddress
    trivial

end SoarProject

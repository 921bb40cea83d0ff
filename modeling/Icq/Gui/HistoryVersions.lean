import Icq.Gui.HistoryById
import Icq.Gui.HistoryConfirmed

namespace Icq.Gui
open Icq.Lib Icq.Common

namespace History

/-- What may stand in the place of a message: no older copy, and of a deleted one only a deleted
copy or a newer one. -/
structure Advances (cur m : MessageBuddy) : Prop where
  notOlder : NotOlder m cur
  deleted : cur.deleted = true →
    m.deleted = true ∨ cur.updatePatchVersion.lessThan m.updatePatchVersion = true

namespace Advances

variable {a b c : MessageBuddy}

theorem refl (a : MessageBuddy) : Advances a a := ⟨.refl a, .inl⟩

/-- A version that is not older than a newer one is newer. -/
theorem lessThan_of_notOlder {p q r : PatchVersion} (hpq : p.lessThan q = true)
    (hqr : r.lessThan q = false) : p.lessThan r = true := by
  by_contra hpr
  rw [Bool.not_eq_true] at hpr
  have := PatchVersion.not_textLess_trans hpr hqr
  rw [PatchVersion.lessThan, this] at hpq
  cases hpq

theorem lessThan_of_older {p q r : PatchVersion} (hpq : q.lessThan p = false)
    (hqr : q.lessThan r = true) : p.lessThan r = true := by
  by_contra hpr
  rw [Bool.not_eq_true] at hpr
  have := PatchVersion.not_textLess_trans hpq hpr
  rw [PatchVersion.lessThan, this] at hqr
  cases hqr

theorem trans (hab : Advances a b) (hbc : Advances b c) : Advances a c := by
  refine ⟨hbc.notOlder.trans hab.notOlder, fun ha => ?_⟩
  rcases hab.deleted ha with hb | hlt
  · rcases hbc.deleted hb with hc | hlt
    · exact .inl hc
    · exact .inr (lessThan_of_older hab.notOlder hlt)
  · exact .inr (lessThan_of_notOlder hlt hbc.notOlder)

theorem setDeleted (a : MessageBuddy) : Advances a (a.setDeleted true) :=
  ⟨PatchVersion.lessThan_irrefl _, fun _ => .inl rfl⟩

end Advances

variable {s s' : History} {c : Buddies} {id : Int} {old : MessageBuddy}

/-- The copy takes the place of the stored one, by the test of its path. -/
def Replaces (option : MessagesBuddiesOpt) (cur m : MessageBuddy) : Prop :=
  match option with
  | .updated => NotOlder m cur
  | .requestedByIds | .search => True
  | _ => cur.needUpdateWith m = true

/-- The part of a batch that is put into the messages. -/
def putRange (c : Buddies) : List MessageBuddy :=
  match c.option with
  | .updated | .requestedByIds | .search => c.buddies
  | _ => delivered c

/-- The stored copy of a message and those of a batch, in the order of their turns. -/
def copies (s : History) (c : Buddies) (id : Int) : List MessageBuddy :=
  (s.messages.find? id).toList ++ (putRange c).filter (·.id == id)

/-- No copy replaces an earlier one but a copy that advances it. -/
def Forward (id : Int) (s : History) : HistoryAction → Prop
  | .messageBuddies c => s.needIgnoreMessages c = true ∨
      (s.copies c id).Pairwise fun cur m => Replaces c.option cur m → Advances cur m
  | .messagesDeleted _ => True
  | _ => False

/-- The answer that is awaited empties the messages first. -/
def Resets (s : History) : HistoryAction → Prop
  | .messageBuddies c => s.needIgnoreMessages c = false ∧ IsInserted c.option ∧
      s.isRequiredWaitingSeq c.seq = true
  | _ => False

section Loop

variable {σ : Type} {step : σ → MessageBuddy → σ} {messages : σ → KeyMap MessageBuddy.id}
  {replaces : MessageBuddy → MessageBuddy → Prop} {cur : MessageBuddy}

/-- A loop that puts what replaces the stored copy advances every copy. -/
theorem advances_foldl
    (hstep : ∀ r m, messages (step r m) = messages r ∨ messages (step r m) = (messages r).put m ∧
      ∀ cur, (messages r).find? m.id = some cur → replaces cur m)
    (l : List MessageBuddy) (r : σ) (hcur : (messages r).find? id = some cur)
    (hpair : (cur :: l.filter (·.id == id)).Pairwise fun cur m => replaces cur m → Advances cur m) :
    ∃ new, (messages (l.foldl step r)).find? id = some new ∧ Advances cur new := by
  induction l generalizing r cur with
  | nil => exact ⟨cur, hcur, .refl cur⟩
  | cons m l ih =>
    rw [List.foldl_cons]
    by_cases hid : m.id = id
    · rw [List.filter_cons, if_pos (beq_iff_eq.mpr hid)] at hpair
      obtain ⟨hhead, htail⟩ := List.pairwise_cons.mp hpair
      rcases hstep r m with heq | ⟨heq, hreplaces⟩
      · apply ih (step r m) (heq ▸ hcur)
        exact List.pairwise_cons.mpr ⟨fun x hx => hhead x (List.mem_cons_of_mem _ hx),
          (List.pairwise_cons.mp htail).2⟩
      · have hm : (messages (step r m)).find? id = some m := by
          rw [heq, KeyMap.find_put, if_pos hid]
        obtain ⟨new, hnew, hadv⟩ := ih (step r m) hm htail
        have hfirst := hhead m List.mem_cons_self (hreplaces cur (hid ▸ hcur))
        exact ⟨new, hnew, hfirst.trans hadv⟩
    · rw [List.filter_cons, if_neg (by rwa [beq_iff_eq])] at hpair
      apply ih (step r m) ?_ hpair
      rcases hstep r m with heq | ⟨heq, -⟩
      · rw [heq]
        exact hcur
      · rw [heq, KeyMap.find_put, if_neg hid]
        exact hcur

end Loop

theorem insertBuddies_advances {messages : KeyMap MessageBuddy.id} {pendings : List MessageWithKey}
    {range : List MessageBuddy} {option : MessagesBuddiesOpt} (hold : messages.find? id = some old)
    (hpair : (old :: range.filter (·.id == id)).Pairwise
      fun cur m => cur.needUpdateWith m = true → Advances cur m) :
    ∃ new, (insertBuddies messages pendings range option).messages.find? id = some new ∧
      Advances old new := by
  refine @advances_foldl _ _ _ BuddiesInsertResult.messages _ _ (fun r m => ?_) range _ hold hpair
  rw [insertBuddy_messages]
  cases hfind : r.messages.find? m.id with
  | some cur =>
    dsimp only
    split
    · rename_i hneed
      refine .inr ⟨rfl, fun cur' h => ?_⟩
      cases h
      exact hneed
    · exact .inl rfl
  | none =>
    dsimp only
    split
    · exact .inl rfl
    · refine .inr ⟨rfl, fun cur h => ?_⟩
      cases h

theorem updateMessages_advances {buddies : List MessageBuddy}
    (hold : s.messages.find? id = some old)
    (hpair : (old :: buddies.filter (·.id == id)).Pairwise
      fun cur m => NotOlder m cur → Advances cur m) :
    ∃ new, (buddies.foldl updateMessage { messages := s.messages }).messages.find? id = some new ∧
      Advances old new := by
  refine @advances_foldl _ _ _ UpdateResult.messages _ _ (fun r m => ?_) buddies _ hold hpair
  rw [updateMessage]
  cases hfind : r.messages.find? m.id with
  | some cur =>
    dsimp only
    split
    · exact .inl rfl
    · rename_i hnot
      refine .inr ⟨rfl, fun cur' h => ?_⟩
      cases h
      rw [Bool.not_eq_true] at hnot
      exact hnot
  | none => exact .inl rfl

theorem requestedByIds_advances (buddies : List MessageBuddy)
    (hold : s.messages.find? id = some old)
    (hpair : (old :: buddies.filter (·.id == id)).Pairwise Advances) :
    ∃ new, (s.processRequestedByIds buddies).1.messages.find? id = some new ∧ Advances old new := by
  rw [processRequestedByIds]
  split
  · refine @advances_foldl _ _ KeyMap.put (fun m => m) (fun _ _ => True) _
      (fun r m => .inr ⟨rfl, fun _ _ => trivial⟩) _ _ hold ?_
    apply List.Pairwise.sublist ?_ (hpair.imp fun h _ => h)
    apply List.Sublist.cons_cons
    exact List.filter_sublist.filter _
  · exact ⟨old, hold, .refl old⟩

/-- The ids that an update does not find stored are not the one that is. -/
theorem updatedMessage_advances {buddies : List MessageBuddy}
    (hold : s.messages.find? id = some old)
    (hpair : (old :: buddies.filter (·.id == id)).Pairwise
      fun cur m => NotOlder m cur → Advances cur m) :
    ∃ new, (s.processUpdatedMessage buddies).1.messages.find? id = some new ∧ Advances old new := by
  obtain ⟨new, hnew, hadv⟩ := updateMessages_advances hold hpair
  rw [processUpdatedMessage]
  dsimp only
  split
  · exact ⟨new, hnew, hadv⟩
  · have hother : (buddies.foldl updateMessage { messages := s.messages }).inserted.filter
        (·.id == id) = [] := by
      rw [List.filter_eq_nil_iff]
      intro m hm hid
      have hnone := ((updatedFrom_foldl s.messages buddies).inserted m hm).2
      rw [beq_iff_eq.mp hid, hold] at hnone
      cases hnone
    obtain ⟨new', hnew', hadv'⟩ := @requestedByIds_advances { s with
      messages := (buddies.foldl updateMessage { messages := s.messages }).messages } _ _
      (buddies.foldl updateMessage { messages := s.messages }).inserted hnew
      (by rw [hother]; exact List.pairwise_singleton _ _)
    exact ⟨new', hnew', hadv.trans hadv'⟩

theorem copies_eq (hold : s.messages.find? id = some old) :
    s.copies c id = old :: (putRange c).filter (·.id == id) := by
  rw [copies, hold]
  rfl

theorem messageBuddies_advances (hold : s.messages.find? id = some old)
    (hforward : s.Forward id (.messageBuddies c)) (hresets : ¬ s.Resets (.messageBuddies c)) :
    ∃ new, (s.messageBuddies c).1.messages.find? id = some new ∧ Advances old new := by
  cases hignore : s.needIgnoreMessages c with
  | true =>
    rw [messageBuddies_skip hignore]
    exact ⟨old, hold, .refl old⟩
  | false =>
    have hpair := hforward.resolve_left (by rw [hignore]; exact Bool.false_ne_true)
    rw [copies_eq hold] at hpair
    by_cases hoption : IsInserted c.option
    · have hmet : s.metMessages c = s.messages := by
        rw [metMessages, if_neg]
        exact fun hseq => hresets ⟨hignore, hoption, hseq⟩
      have hpart : putRange c = delivered c ∧ ∀ cur m, Replaces c.option cur m =
          (cur.needUpdateWith m = true) := by
        obtain ⟨hupdated, hids, hsearch⟩ := hoption
        rw [putRange]
        unfold Replaces
        cases hopt : c.option <;> first
          | exact ⟨rfl, fun _ _ => rfl⟩
          | contradiction
      rw [(messageBuddies_inserted hignore hoption).1, buddiesResult]
      rw [hpart.1] at hpair
      simp only [hpart.2] at hpair
      exact insertBuddies_advances (hmet ▸ hold) hpair
    · rcases (option_cases c.option).resolve_left hoption with hupdated | hids
      · rw [putRange, hupdated] at hpair
        rw [messageBuddies_update hignore hupdated]
        exact @updatedMessage_advances (s.noted c) _ _ _ hold hpair
      · have hall : (old :: c.buddies.filter (·.id == id)).Pairwise Advances := by
          rcases hids with hids | hids
          · rw [putRange, hids] at hpair
            exact hpair.imp fun h => h trivial
          · rw [putRange, hids] at hpair
            exact hpair.imp fun h => h trivial
        rw [messageBuddies_byIds hignore hids]
        exact @requestedByIds_advances (s.noted c) _ _ _ hold hall

theorem deleteMessage_advances {r : History × List MessageBuddy} {msg : MessageBuddy}
    (hold : r.1.messages.find? id = some old) :
    ∃ new, (deleteMessage r msg).1.messages.find? id = some new ∧ Advances old new := by
  rw [deleteMessage]
  split
  · split <;> exact ⟨old, hold, .refl old⟩
  · split
    · rename_i m hfind
      by_cases hid : msg.id = id
      · rw [hid, hold] at hfind
        cases hfind
        refine ⟨old.setDeleted true, ?_, .setDeleted old⟩
        have hold' : (old.setDeleted true).id = id := (KeyMap.find_mem hold).2
        rw [KeyMap.find_put, if_pos hold']
      · refine ⟨old, ?_, .refl old⟩
        have hne : (m.setDeleted true).id ≠ id := fun h => hid ((KeyMap.find_mem hfind).2.symm.trans h)
        rw [KeyMap.find_put, if_neg hne]
        exact hold
    · exact ⟨old, hold, .refl old⟩

theorem messagesDeleted_advances {buddies : List MessageBuddy}
    (hold : s.messages.find? id = some old) :
    ∃ new, (s.messagesDeleted buddies).1.messages.find? id = some new ∧ Advances old new := by
  have hfold : ∀ (l : List MessageBuddy) (r : History × List MessageBuddy) (cur : MessageBuddy),
      r.1.messages.find? id = some cur →
      ∃ new, (l.foldl deleteMessage r).1.messages.find? id = some new ∧ Advances cur new := by
    intro l
    induction l with
    | nil => exact fun r cur h => ⟨cur, h, .refl cur⟩
    | cons m l ih =>
      intro r cur h
      obtain ⟨mid, hmid, hadv⟩ := @deleteMessage_advances _ _ _ m h
      obtain ⟨new, hnew, hadv'⟩ := ih _ mid hmid
      exact ⟨new, hnew, hadv.trans hadv'⟩
  rw [messagesDeleted]
  split
  · exact ⟨old, hold, .refl old⟩
  · obtain ⟨new, hnew, hadv⟩ := hfold buddies (s, []) old hold
    refine ⟨new, ?_, hadv⟩
    rw [clearPendingsIfPossible_messages]
    exact hnew

/-- While a message stays, no older copy takes its place, and a deleted one stays deleted until
a newer copy comes: in every run of batches and deletions whose copies advance. -/
theorem never_goes_back (hold : s.messages.find? id = some old)
    (h : Run (fun s action => some (act s action))
      (fun s action => s.Forward id action ∧ ¬ s.Resets action) s s') :
    ∃ new, s'.messages.find? id = some new ∧ NotOlder new old ∧
      (old.deleted = true → new.deleted = true ∨
        old.updatePatchVersion.lessThan new.updatePatchVersion = true) := by
  have hrun : ∃ new, s'.messages.find? id = some new ∧ Advances old new := by
    apply h.invariant (P := fun s => ∃ new, s.messages.find? id = some new ∧ Advances old new)
    · exact ⟨old, hold, .refl old⟩
    · intro s action s' ⟨mid, hmid, hadv⟩ ⟨hforward, hresets⟩ hstep
      cases hstep
      cases action with
      | messageBuddies c =>
        obtain ⟨new, hnew, hadv'⟩ := messageBuddies_advances hmid hforward hresets
        exact ⟨new, hnew, hadv.trans hadv'⟩
      | messagesDeleted buddies =>
        obtain ⟨new, hnew, hadv'⟩ := @messagesDeleted_advances _ _ _ buddies hmid
        exact ⟨new, hnew, hadv.trans hadv'⟩
      | _ => exact hforward.elim
  obtain ⟨new, hnew, hadv⟩ := hrun
  exact ⟨new, hnew, hadv.notOlder, hadv.deleted⟩

section Answers

def stored : MessageBuddy := { id := 1, updatePatchVersion := { versionString := [50] } }

/-- A history of one message, in its second version. -/
def oneStored : History := act {} (.messageBuddies { buddies := [stored], option := .dlgState })

/-- An answer by ids with the copy of some version. -/
def answer (version : Bytes) : HistoryAction :=
  .messageBuddies
    { buddies := [{ id := 1, updatePatchVersion := { versionString := version } }]
      option := .requestedByIds }

/-- Deleted, and then replaced by the third version. -/
theorem never_goes_back_newer :
    ∃ new, ((oneStored.act (.messagesDeleted [stored])).act (answer [51])).messages.find? 1 =
        some new ∧ NotOlder new stored ∧
      (stored.deleted = true → new.deleted = true ∨
        stored.updatePatchVersion.lessThan new.updatePatchVersion = true) := by
  refine never_goes_back (s := oneStored) rfl (.step (answer [51]) (.step (.messagesDeleted [stored])
    .start ⟨trivial, not_false⟩ rfl) ⟨.inr ?_, fun h => h.2.1.2.1 rfl⟩ rfl)
  apply List.pairwise_pair.mpr
  intro _
  exact ⟨by rfl, fun _ => .inr (by rfl)⟩

/-- The answer to an earlier request brings the first version back. -/
theorem went_back : ¬ ∀ s, Reachable s → ∀ id old, s.messages.find? id = some old → ∀ s',
    Run (fun s action => some (act s action)) (fun s action => ¬ s.Resets action ∧
      (action.isMessageBuddies = true ∨ ∃ buddies, action = .messagesDeleted buddies)) s s' →
    ∃ new, s'.messages.find? id = some new ∧ NotOlder new old ∧
      (old.deleted = true → new.deleted = true ∨
        old.updatePatchVersion.lessThan new.updatePatchVersion = true) := by
  intro h
  have hrun := h oneStored (reachable_foldl [.messageBuddies { buddies := [stored], option := .dlgState }])
    1 stored rfl (oneStored.act (answer [49]))
    (.step (answer [49]) .start ⟨fun h => h.2.1.2.1 rfl, .inl rfl⟩ rfl)
  obtain ⟨new, hnew, hnot, -⟩ := hrun
  cases hnew
  cases hnot

end Answers

end History

end Icq.Gui

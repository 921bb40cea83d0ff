import Mathlib.Data.List.Basic

namespace Icq.Common

/-- The number of an event name; a file can hold numbers that no name has. -/
abbrev ImStatEventNames : Type := Int

namespace ImStatEventNames

def min : ImStatEventNames := 5

def max : ImStatEventNames := 7004

/-- The event names with their texts. -/
def texts : List (ImStatEventNames × String) :=
  [ (6, "memory_state"),
    (7, "memory_state_limit"),
    (8, "u_im_network_communication"),
    (9, "u_im_network_error"),
    (10, "u_im_network_http_code"),
    (11, "u_im_network_parsing_error"),
    (12, "u_im_network_api_error"),
    (13, "u_network_decompression_error"),
    (14, "u_network_compression_ignored"),
    (1000, "im_network_communication"),
    (1001, "im_network_error"),
    (1002, "im_network_http_code"),
    (1003, "im_network_parsing_error"),
    (1004, "im_network_api_error"),
    (2000, "im_reg_login_phone"),
    (2001, "im_reg_login_uin"),
    (2002, "im_reg_sms_resend"),
    (2003, "im_reg_error_code"),
    (2004, "im_reg_error_uin"),
    (2005, "im_reg_error_code_sms"),
    (2006, "im_reg_error_code_2fa"),
    (3000, "messages_from_created_to_sent"),
    (3001, "messages_from_created_to_delivered"),
    (4000, "im_crash"),
    (5000, "im-text-sticker-suggested"),
    (5001, "im-text-sticker-used"),
    (5002, "stickers_smartreply_appear_in_input"),
    (5003, "stickers_smartreply_sticker_sent"),
    (5004, "smartreply_text_appear_in_input"),
    (5005, "smartreply_text_sent"),
    (5006, "stickers_suggests_appear_in_input"),
    (5007, "stickers_suggested_sticker_sent"),
    (5008, "settingsscr_smartreply_action"),
    (5009, "stickers_download_per_second"),
    (6000, "im_installer_ok"),
    (6001, "im_installer_open_files_archive"),
    (6002, "im_installer_create_product_folder"),
    (6003, "im_installer_open_file_for_write"),
    (6004, "im_installer_write_file"),
    (6005, "im_installer_start_exe"),
    (6007, "im_installer_open_registry_key"),
    (6008, "im_installer_set_registry_value"),
    (6009, "im_installer_get_registry_value"),
    (6010, "im_installer_create_registry_key"),
    (6011, "im_installer_copy_installer"),
    (6012, "im_installer_get_special_folder"),
    (6013, "im_installer_write_to_uninstall"),
    (6014, "im_installer_copy_installer_to_temp"),
    (6015, "im_installer_get_temp_path"),
    (6016, "im_installer_get_temp_file_name"),
    (6017, "im_installer_get_module_name"),
    (6018, "im_installer_start_installer_from_temp"),
    (6019, "im_installer_invalid_installer_pack"),
    (6020, "im_installer_terminate_connect_timeout"),
    (6021, "im_installer_terminate_procid_rcvd"),
    (6022, "installer_terminate_open_proc_failed"),
    (6023, "im_installer_terminate_shutdown_sent"),
    (6024, "im_installer_terminate_abnormal_open_proc_failed"),
    (6025, "im_installer_terminate_abnormal_wait_timeout"),
    (6026, "im_installer_generate_guid"),
    (6027, "im_installer_move_file"),
    (7000, "im_network_fallback_to_auto_dns_resolve"),
    (7001, "im_network_dns_resolve_err_during_manual_resolving"),
    (7002, "im_network_dns_resolve_err_during_auto_resolving"),
    (7003, "im_network_dns_resolve_err_during_workaround") ]

end ImStatEventNames

def imStatEventToString (arg : ImStatEventNames) : String :=
  (ImStatEventNames.texts.lookup arg).getD ""

namespace ImStatEventNames

/-- The name of a text. -/
def ofText (text : String) : Option ImStatEventNames :=
  (texts.find? fun row => row.2 == text).map Prod.fst

/-- An enumerator of the event names. -/
def Named (name : ImStatEventNames) : Prop := (texts.lookup name).isSome

instance (name : ImStatEventNames) : Decidable name.Named := inferInstanceAs (Decidable (_ = true))

/-- No two names have one text. -/
theorem ofText_of_mem : ∀ row ∈ texts, ofText row.2 = some row.1 := by decide +kernel

/-- Every name has a text and lies between the bounds. -/
theorem texts_between : ∀ row ∈ texts, row.2 ≠ "" ∧ min < row.1 ∧ row.1 < max := by decide +kernel

theorem mem_texts {name : ImStatEventNames} (h : name.Named) :
    (name, imStatEventToString name) ∈ texts := by
  obtain ⟨text, htext⟩ := Option.isSome_iff_exists.mp h
  obtain ⟨before, after, hrows, -⟩ := List.lookup_eq_some_iff.mp htext
  rw [imStatEventToString, htext, hrows]
  exact List.mem_append_right _ List.mem_cons_self

theorem Named.between {name : ImStatEventNames} (h : name.Named) : min < name ∧ name < max :=
  (texts_between _ (mem_texts h)).2

theorem Named.text_ne {name : ImStatEventNames} (h : name.Named) : imStatEventToString name ≠ "" :=
  (texts_between _ (mem_texts h)).1

theorem Named.ofText {name : ImStatEventNames} (h : name.Named) :
    ofText (imStatEventToString name) = some name :=
  ofText_of_mem _ (mem_texts h)

end ImStatEventNames

end Icq.Common

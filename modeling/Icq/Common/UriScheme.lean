import Icq.Common.CaseFolding
import Icq.Common.RkSearcher

/-! The schemes of URIs. -/

namespace Icq.Common

def inRange (lo hi c : WChar) : Bool := decide (lo ≤ c) && decide (c ≤ hi)

inductive SchemeType where
  | undefined
  | https
  | http
  | email
  | sftp
  | tftp
  | ftps
  | ftp
  | ssh
  | smb
  | vnc
  | rdp
  | icq
  | agent
  | biz
  | bizOld
  | dit
  deriving DecidableEq, Repr

namespace SchemeType

def num : SchemeType → Int
  | undefined => -1
  | https => 0
  | http => 1
  | email => 2
  | sftp => 3
  | tftp => 4
  | ftps => 5
  | ftp => 6
  | ssh => 7
  | smb => 8
  | vnc => 9
  | rdp => 10
  | icq => 11
  | agent => 12
  | biz => 13
  | bizOld => 14
  | dit => 15

def signature : SchemeType → WString
  | undefined => []
  | https => wide "https://"
  | http => wide "http://"
  | email => wide "mailto:"
  | sftp => wide "sftp://"
  | tftp => wide "tftp://"
  | ftps => wide "ftps://"
  | ftp => wide "ftp://"
  | ssh => wide "ssh://"
  | smb => wide "smb://"
  | vnc => wide "vnc://"
  | rdp => wide "rdp://"
  | icq => wide "icq://"
  | agent => wide "magent://"
  | biz => wide "vkteams://"
  | bizOld => wide "myteam-messenger://"
  | dit => wide "itd-messenger://"

/-- The table of signatures, `WSCHEMES`. -/
def all : List SchemeType :=
  [https, http, email, sftp, tftp, ftps, ftp, ssh, smb, vnc, rdp, icq, agent, biz, bizOld, dit]

def isCommonScheme (scheme : SchemeType) : Bool :=
  decide (undefined.num < scheme.num) && decide (scheme.num < icq.num)

theorem signature_ne_nil {scheme : SchemeType} (h : scheme ∈ all) : scheme.signature ≠ [] := by
  cases scheme <;> first | decide | (exact absurd h (by decide))

end SchemeType

/-- What the configuration and the features say about schemes. -/
structure SchemeSettings where
  registered : List SchemeType
  urlFtpProtocolsAllowed : Bool

def SchemeSettings.isAllowed (settings : SchemeSettings) (scheme : SchemeType) : Bool :=
  if SchemeType.undefined.num ≤ scheme.num ∧ scheme.num < SchemeType.icq.num then
    if !settings.urlFtpProtocolsAllowed then
      !(decide (SchemeType.sftp.num ≤ scheme.num) && decide (scheme.num ≤ SchemeType.ftp.num))
    else true
  else decide (scheme ∈ settings.registered)

end Icq.Common

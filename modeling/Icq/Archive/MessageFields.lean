import Mathlib.Logic.Basic

/-! The tags of the fields of a stored message. -/

namespace Icq.Archive

def mfMsgId : UInt32 := 1
def mfFlags : UInt32 := 2
def mfTime : UInt32 := 3
def mfText : UInt32 := 5
def mfChat : UInt32 := 6
def mfSticker : UInt32 := 7
def mfMult : UInt32 := 8
def mfVoip : UInt32 := 9
def mfStickerId : UInt32 := 10
def mfChatSender : UInt32 := 11
def mfChatName : UInt32 := 12
def mfPrevMsgId : UInt32 := 13
def mfInternalId : UInt32 := 14
def mfChatFriendly : UInt32 := 15
def mfFileSharing : UInt32 := 16
def mfFileSharingUri : UInt32 := 18
def mfFileSharingLocalPath : UInt32 := 19
def mfSenderFriendly : UInt32 := 21
def mfChatEvent : UInt32 := 22
def mfChatEventType : UInt32 := 23
def mfChatEventSenderFriendly : UInt32 := 24
def mfChatEventMchatMembers : UInt32 := 25
def mfChatEventNewChatName : UInt32 := 26
def mfVoipEventType : UInt32 := 27
def mfVoipSenderFriendly : UInt32 := 28
def mfVoipSenderAimid : UInt32 := 29
def mfVoipDuration : UInt32 := 30
def mfVoipIsIncoming : UInt32 := 31
def mfChatEventGenericText : UInt32 := 32
def mfChatEventNewChatDescription : UInt32 := 33
def mfQuoteText : UInt32 := 34
def mfQuoteSn : UInt32 := 35
def mfQuoteMsgId : UInt32 := 36
def mfQuoteTime : UInt32 := 37
def mfQuoteChatId : UInt32 := 38
def mfQuote : UInt32 := 39
def mfQuoteFriendly : UInt32 := 40
def mfQuoteIsForward : UInt32 := 41
def mfChatEventNewChatRules : UInt32 := 42
def mfChatEventSenderAimid : UInt32 := 43
def mfQuoteSetId : UInt32 := 44
def mfQuoteStickerId : UInt32 := 45
def mfQuoteChatStamp : UInt32 := 46
def mfQuoteChatName : UInt32 := 47
def mfMention : UInt32 := 48
def mfMentionSn : UInt32 := 49
def mfMentionFriendly : UInt32 := 50
def mfChatEventMchatMembersAimids : UInt32 := 51
def mfUpdatePatchVersion : UInt32 := 52
def mfSnippet : UInt32 := 53
def mfSnippetUrl : UInt32 := 54
def mfSnippetContentType : UInt32 := 55
def mfSnippetPreviewUrl : UInt32 := 56
def mfSnippetPreviewW : UInt32 := 57
def mfSnippetPreviewH : UInt32 := 58
def mfSnippetTitle : UInt32 := 59
def mfSnippetDescription : UInt32 := 60
def mfVoipConfMembers : UInt32 := 61
def mfVoipIsVideo : UInt32 := 62
def mfChatEventIsCaptchaPresent : UInt32 := 63
def mfDescription : UInt32 := 64
def mfUrl : UInt32 := 65
def mfQuoteUrl : UInt32 := 66
def mfQuoteDescription : UInt32 := 67
def mfOfflineVersion : UInt32 := 68
def mfFriendlyOfficial : UInt32 := 69
def mfSharedContact : UInt32 := 70
def mfSharedContactName : UInt32 := 71
def mfSharedContactPhone : UInt32 := 72
def mfSharedContactSn : UInt32 := 73
def mfFileSharingBaseContentType : UInt32 := 74
def mfFileSharingDuration : UInt32 := 75
def mfGeo : UInt32 := 76
def mfGeoName : UInt32 := 77
def mfGeoLat : UInt32 := 78
def mfGeoLong : UInt32 := 79
def mfChatIsChannel : UInt32 := 80
def mfPoll : UInt32 := 81
def mfPollId : UInt32 := 82
def mfPollAnswer : UInt32 := 83
def mfPollType : UInt32 := 84
def mfChatEventNewChatStamp : UInt32 := 85
def mfJson : UInt32 := 86
def mfSenderAimid : UInt32 := 87
def mfButtons : UInt32 := 88
def mfHideEdit : UInt32 := 89
def mfChatRequestedBy : UInt32 := 90
def mfChatRequestedByFriendly : UInt32 := 91
def mfCallAimid : UInt32 := 92
def mfVoipSid : UInt32 := 93
def mfReactions : UInt32 := 94
def mfReactionsExist : UInt32 := 95
def mfChatEventSenderStatus : UInt32 := 96
def mfChatEventOwnerStatus : UInt32 := 97
def mfChatEventSenderStatusDesctiprion : UInt32 := 98
def mfChatEventOwnerStatusDescription : UInt32 := 99
def mfFormat : UInt32 := 100
def mfFormatOffset : UInt32 := 101
def mfFormatLength : UInt32 := 102
def mfFormatData : UInt32 := 103
def mfFormatBold : UInt32 := 104
def mfFormatItalic : UInt32 := 105
def mfFormatUnderline : UInt32 := 106
def mfFormatStrikethrough : UInt32 := 107
def mfFormatInlineCode : UInt32 := 108
def mfFormatUrl : UInt32 := 109
def mfFormatMention : UInt32 := 110
def mfFormatQuote : UInt32 := 111
def mfFormatPre : UInt32 := 112
def mfFormatOrderedList : UInt32 := 113
def mfFormatUnorderedList : UInt32 := 114
def mfDescriptionFormat : UInt32 := 115
def mfTask : UInt32 := 116
def mfTaskId : UInt32 := 117
def mfTaskTitle : UInt32 := 118
def mfTaskAssignee : UInt32 := 119
def mfTaskEndTime : UInt32 := 120
def mfThreadId : UInt32 := 121
def mfTaskStatus : UInt32 := 122
def mfChatEventTaskEditor : UInt32 := 123
def mfFormatStartIndex : UInt32 := 124
def mfChatEventThreadsEnabled : UInt32 := 125

end Icq.Archive
